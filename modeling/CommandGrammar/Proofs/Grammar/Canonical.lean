/-
  CommandGrammar.Proofs.Grammar.Canonical — the rules derive a canonical pattern from its spelling.

  In canonical form a variant group has brackets of its own wherever the rules ask for
  them, except between braces. So a flattened pattern is derived from what it is spelled
  with, unless alternatives stand alone between braces (`Bare`): then they are spelled
  without the brackets, and nothing is derived (`root_of_derivable`, `not_root_of_bare`).
-/

import CommandGrammar.Proofs.Grammar.Brackets
import CommandGrammar.Proofs.Grammar.Grouped
import CommandGrammar.Proofs.Pattern.Canonical
import Mathlib.Data.List.Induction

namespace CommandGrammar.Grammar

open Pattern (Canonical Formed Inline Leaf Placed guardSole inherits unpacked)

/-! ## Literals -/

/-- A literal is not more sensitive to case than what it is read as. -/
def Fits (caseSensitive : Bool) : Pattern → Prop
  | .literal _ own _ => own = true → caseSensitive = true
  | _ => True

theorem modified_modifiers {cs caseSensitive : Bool} (h : caseSensitive = true → cs = true) (text : Bytes) (tolerant : Bool) :
    modified cs text (modifiers caseSensitive tolerant) = .literal text caseSensitive tolerant := by
  unfold modified
  cases caseSensitive with
  | true => cases tolerant <;> simp [modifiers, h rfl]
  | false => cases tolerant <;> simp [modifiers]

theorem fits_modified (cs : Bool) (text : Bytes) (ms : List Modifier) : Fits cs (modified cs text ms) := by
  intro h
  exact (Bool.and_eq_true_iff.mp h).1

variable {cs : Bool}

theorem fits_group {p : Pattern} (hp : ¬ Leaf p) (h : ∀ ps ∈ p.childLists, ∀ q ∈ Pattern.nodesOf ps, Fits cs q) :
    ∀ q ∈ p.nodes, Fits cs q := by
  refine Pattern.forall_mem_nodes.mpr ⟨?_, h⟩
  cases p with
  | literal => exact absurd (.literal ..) hp
  | _ => trivial

theorem fits_single {p : Pattern} (h : ∀ q ∈ p.nodes, Fits cs q) : ∀ q ∈ Pattern.nodesOf [p], Fits cs q := by
  simpa [Pattern.nodesOf] using h

theorem fits_parenthesized {as : List (List Pattern)} (id : Option Bytes) (hne : as ≠ [])
    (h : ∀ ps ∈ as, ∀ q ∈ Pattern.nodesOf ps, Fits cs q) : ∀ q ∈ (parenthesized as id).nodes, Fits cs q := by
  rcases one_or_two hne with ⟨ps, rfl⟩ | h2
  · exact fits_group (p := .sequence ps) (by rintro ⟨⟩) h
  · rw [parenthesized_of_two id h2]
    exact fits_group (by rintro ⟨⟩) h

theorem fits_bracketed {as : List (List Pattern)} (id : Option Bytes) (hne : as ≠ [])
    (h : ∀ ps ∈ as, ∀ q ∈ Pattern.nodesOf ps, Fits cs q) : ∀ q ∈ (bracketed as id).nodes, Fits cs q := by
  rcases one_or_two hne with ⟨ps, rfl⟩ | h2
  · exact fits_group (p := .optional ps id) (by rintro ⟨⟩) h
  · rw [bracketed_of_two id h2]
    refine fits_group (by rintro ⟨⟩) (List.forall_mem_singleton.mpr ?_)
    exact fits_single (fits_group (p := .variants as id id.isSome false) (by rintro ⟨⟩) h)

mutual

theorem Item.fits {ts : List Terminal} {p : Pattern} (h : Item cs ts p) : ∀ q ∈ p.nodes, Fits cs q := by
  match h with
  | .literal text ms => exact List.forall_mem_singleton.mpr (fits_modified cs text ms)
  | .parameter .. => exact List.forall_mem_singleton.mpr trivial
  | .tail .. => exact List.forall_mem_singleton.mpr trivial
  | .parenthesized ha .. => exact fits_parenthesized _ ha.ne_nil ha.fits
  | .bracketed ha .. => exact fits_bracketed _ ha.ne_nil ha.fits
  | .braced hi .. => exact fits_group (by rintro ⟨⟩) (List.forall_mem_singleton.mpr hi.fits)

theorem Items.fits {ts : List Terminal} {ps : List Pattern} (h : Items cs ts ps) : ∀ q ∈ Pattern.nodesOf ps, Fits cs q := by
  match h with
  | .one hi => exact fits_single hi.fits
  | .more hs hi =>
    rw [Pattern.nodesOf_append, List.forall_mem_append]
    exact ⟨hs.fits, fits_single hi.fits⟩

theorem Alternatives.fits {ts : List Terminal} {as : List (List Pattern)} (h : Alternatives cs ts as) :
    ∀ ps ∈ as, ∀ q ∈ Pattern.nodesOf ps, Fits cs q := by
  match h with
  | .one hi => exact List.forall_mem_singleton.mpr hi.fits
  | .more ha hi => exact List.forall_mem_append.mpr ⟨ha.fits, List.forall_mem_singleton.mpr hi.fits⟩

end

theorem Root.fits {ts : List Terminal} {items : List Pattern} (h : Root cs ts items) :
    ∀ q ∈ Pattern.nodesOf items, Fits cs q := by
  cases h with
  | empty => exact List.forall_mem_nil _
  | @alternatives ts as ha =>
    rcases one_or_two ha.ne_nil with ⟨ps, rfl⟩ | h2
    · exact ha.fits ps List.mem_cons_self
    · rw [unbracketed_of_two h2]
      exact fits_single (fits_group (p := .variants as none false false) (by rintro ⟨⟩) ha.fits)

/-! ## Deriving lists -/

theorem items_spelling {ps : List Pattern} (hne : ps ≠ []) (h : ∀ p ∈ ps, Item cs (spelling p) p) :
    Items cs (spellingOf ps) ps := by
  induction ps using List.reverseRecOn with
  | nil => exact absurd rfl hne
  | append_singleton ps p ih =>
    rw [List.forall_mem_append, List.forall_mem_singleton] at h
    by_cases hps : ps = []
    · subst hps
      rw [List.nil_append, spellingOf_single]
      exact .one h.2
    · rw [spellingOf_snoc]
      exact .more (ih hps h.1) h.2

theorem alternatives_spelling {as : List (List Pattern)} (hne : as ≠ []) (h : ∀ a ∈ as, Items cs (spellingOf a) a) :
    Alternatives cs (divided (spellingOfEach as)) as := by
  induction as using List.reverseRecOn with
  | nil => exact absurd rfl hne
  | append_singleton as a ih =>
    rw [List.forall_mem_append, List.forall_mem_singleton] at h
    by_cases has : as = []
    · subst has
      rw [List.nil_append, spellingOfEach, spellingOfEach, divided_single]
      exact .one h.2
    · rw [spellingOfEach_snoc, divided_snoc (spellingOfEach_ne_nil has)]
      exact .more (ih has h.1) h.2

/-! ## Deriving groups -/

/-- The pattern is not a variant group that is without brackets of its own. -/
def Enclosed : Pattern → Prop
  | .variants _ _ inherited parenthesized => inherited = false ∧ parenthesized = true
  | _ => True

/-- Alternatives stand alone between braces. -/
def Bare (p : Pattern) : Prop :=
  ∃ as inherited parenthesized id, p = .unordered [.variants as none inherited parenthesized] id

/-- A variant group gets brackets of its own for its place or for its identifier. -/
theorem enclosed_of_placed {p : Pattern} {nested sole : Bool} (hp : Placed nested sole p) (hi : p.inherits = false)
    (h : (nested && !sole) = false → ∀ as i e, p ≠ .variants as none i e) : Enclosed p := by
  cases p with
  | variants as id inherited parenthesized =>
    obtain rfl : inherited = false := hi
    injection hp with _ _ _ hmark
    refine ⟨rfl, hmark.symm.trans ?_⟩
    cases hplace : nested && !sole with
    | true => rfl
    | false =>
      cases id with
      | none => exact absurd rfl (h hplace as false parenthesized)
      | some id => rfl
  | _ => trivial

/-- What a node keeps to, if it is to be derived. -/
structure Derivable (cs : Bool) (p : Pattern) : Prop where
  canonical : p.Canonical
  formed : p.Formed
  fits : Fits cs p
  notBare : ¬ Bare p

/-- What is derived from the spelling of a pattern. -/
structure Derived (cs : Bool) (p : Pattern) : Prop where
  item : Enclosed p → Item cs (spelling p) p
  alternatives : ∀ as id inherited parenthesized, p = .variants as id inherited parenthesized →
    2 ≤ as.length ∧ Alternatives cs (divided (spellingOfEach as)) as

/-- A pattern that is no variant group is derived as an item or not at all. -/
theorem Derived.of_item {p : Pattern} (h : Item cs (spelling p) p)
    (hp : ∀ as id inherited parenthesized, p ≠ .variants as id inherited parenthesized) : Derived cs p :=
  ⟨fun _ => h, fun as id i e heq => absurd heq (hp as id i e)⟩

theorem items_of_derived {ps : List Pattern} (hne : ps ≠ []) (h : ∀ p ∈ ps, Derived cs p) (henclosed : ∀ p ∈ ps, Enclosed p) :
    Items cs (spellingOf ps) ps :=
  items_spelling hne fun p hp => (h p hp).item (henclosed p hp)

theorem item_sequence {ps : List Pattern} (h : Items cs (spellingOf ps) ps) :
    Item cs (spelling (.sequence ps)) (.sequence ps) := by
  have hitem : Item cs _ (parenthesized [ps] none) := .parenthesized (.one h) .absent (by simp)
  rwa [← enclosed_append, List.append_nil] at hitem

theorem item_unordered {ps : List Pattern} (h : Items cs (spellingOf ps) ps) (id : Option Bytes) :
    Item cs (spelling (.unordered ps id)) (.unordered ps id) := by
  rw [spelling, enclosed_append]
  exact .braced h (.spelled id)

theorem item_optional {ps : List Pattern} (h : Items cs (spellingOf ps) ps) (id : Option Bytes) :
    Item cs (spelling (.optional ps id)) (.optional ps id) := by
  have hitem : Item cs _ (bracketed [ps] id) := .bracketed (.one h) (.spelled id)
  rw [spelling, h.inherited_eq_none, Option.none_or, enclosed_append]
  exact hitem

/-- A variant group without a mark, alone in an optional, is what the alternatives in the brackets describe. -/
theorem item_bracketed {as : List (List Pattern)} (id : Option Bytes) (hlen : 2 ≤ as.length)
    (h : Alternatives cs (divided (spellingOfEach as)) as) :
    Item cs (spelling (.optional [.variants as id id.isSome false] none)) (.optional [.variants as id id.isSome false] none) := by
  rw [← bracketed_of_two id hlen, spelling_bracketed h.ne_nil h.sole_inherited_eq_none, enclosed_append]
  exact .bracketed h (.spelled id)

/-! ## Canonical patterns -/

/-- In a list of children there are brackets around each variant group, except around one that stands alone without an
    identifier. -/
theorem enclosed_of_inline {ps : List Pattern} (h : ∀ p ∈ ps, Placed true (ps.length == 1) p)
    (hi : ∀ p ∈ ps, p.inherits = false) (hsole : ∀ as i e, ps ≠ [.variants as none i e]) : ∀ p ∈ ps, Enclosed p := by
  intro p hp
  refine enclosed_of_placed (h p hp) (hi p hp) ?_
  rintro hlen as i e rfl
  obtain ⟨q, rfl⟩ := List.length_eq_one_iff.mp (by simpa using hlen)
  exact hsole as i e (congrArg (fun c => [c]) (List.mem_singleton.mp hp).symm)

/-- A variant group that stands alone is marked only for an identifier of its own. -/
theorem mark_of_inline {as : List (List Pattern)} {id : Option Bytes} {inherited parenthesized : Bool}
    (h : Inline [.variants as id inherited parenthesized]) : parenthesized = (id.isSome && !inherited) := by
  have hplaced := (h _ List.mem_cons_self).2
  injection hplaced with _ _ _ hmark
  exact hmark.symm

theorem items_of_sequence {ps : List Pattern} (hp : Derivable cs (.sequence ps)) (ih : ∀ p ∈ ps, Derived cs p) :
    Items cs (spellingOf ps) ps := by
  obtain ⟨hlen, hinline⟩ : Canonical (.sequence ps) := hp.canonical
  have hi := Pattern.inherits_of_childLists hp.formed (by simp) ps List.mem_cons_self
  refine items_of_derived (hp.formed.filled ps List.mem_cons_self) ih ?_
  refine enclosed_of_inline (fun p hp => (hinline p hp).2) hi ?_
  rintro as i e rfl
  simp at hlen

theorem derived_unordered {ps : List Pattern} {id : Option Bytes} (hp : Derivable cs (.unordered ps id))
    (ih : ∀ p ∈ ps, Derived cs p) : Derived cs (.unordered ps id) := by
  obtain ⟨_, hplaced⟩ : Canonical (.unordered ps id) := hp.canonical
  have hi := Pattern.inherits_of_childLists hp.formed (by simp) ps List.mem_cons_self
  have henclosed : ∀ p ∈ ps, Enclosed p := by
    refine enclosed_of_inline hplaced hi ?_
    rintro as i e rfl
    exact hp.notBare ⟨as, i, e, id, rfl⟩
  exact .of_item (item_unordered (items_of_derived (hp.formed.filled ps List.mem_cons_self) ih henclosed) id) (by simp)

theorem derived_variants {as : List (List Pattern)} {id : Option Bytes} {inherited parenthesized : Bool}
    (hp : Derivable cs (.variants as id inherited parenthesized)) (ih : ∀ a ∈ as, ∀ p ∈ a, Derived cs p) :
    Derived cs (.variants as id inherited parenthesized) := by
  obtain ⟨_, hvariants⟩ : Canonical (.variants as id inherited parenthesized) := hp.canonical
  have hlen : 2 ≤ as.length := hp.formed.several _ _ _ _ rfl
  have hi := Pattern.inherits_of_childLists hp.formed (by simp)
  have hitems : ∀ a ∈ as, Items cs (spellingOf a) a := by
    intro a ha
    obtain ⟨hinline, hunmerged⟩ := hvariants a ha
    refine items_of_derived (hp.formed.filled a ha) (ih a ha) ?_
    refine enclosed_of_inline (fun p hp => (hinline p hp).2) (hi a ha) ?_
    -- a group that stands alone in a variant without an identifier would have been merged
    rintro bs i e rfl
    obtain rfl : e = false := mark_of_inline hinline
    have hbs : bs = [[.variants bs none i false]] := hunmerged
    have hseveral := ((ih _ ha _ List.mem_cons_self).alternatives bs none i false rfl).1
    rw [hbs] at hseveral
    simp at hseveral
  have halternatives := alternatives_spelling (List.ne_nil_of_length_pos (by omega)) hitems
  refine ⟨?_, ?_⟩
  · rintro ⟨rfl, rfl⟩
    rw [← parenthesized_of_two id hlen, spelling_parenthesized halternatives.ne_nil (fun _ => hlen), enclosed_append]
    exact .parenthesized halternatives (.spelled id) fun _ => hlen
  · rintro _ _ _ _ heq
    cases heq
    exact ⟨hlen, halternatives⟩

theorem guardSole_none (ps : List Pattern) : guardSole none ps = ps := by
  rcases Pattern.guardSole_cases none ps with ⟨_, _, _, hid, _⟩ | h
  · cases hid
  · exact h

theorem derived_optional {ps : List Pattern} {id : Option Bytes} (hp : Derivable cs (.optional ps id))
    (ih : ∀ p ∈ ps, Derived cs p) : Derived cs (.optional ps id) := by
  refine .of_item ?_ (by simp)
  have hne : ps ≠ [] := hp.formed.filled ps List.mem_cons_self
  obtain ⟨qs, hqs, hinline⟩ : Canonical (.optional ps id) := hp.canonical
  rcases hp.formed.inherited with ⟨as, x, e, heq⟩ | hi
  · -- the variant group has inherited the identifier
    cases heq
    rw [guardSole_none] at hqs
    subst hqs
    obtain rfl : e = false := mark_of_inline hinline
    obtain ⟨hlen, halternatives⟩ := (ih _ List.mem_cons_self).alternatives as (some x) true false rfl
    exact item_bracketed (some x) hlen halternatives
  · have hi : ∀ p ∈ ps, p.inherits = false := hi ps List.mem_cons_self
    by_cases hsole : ∃ as i e, ps = [.variants as none i e]
    · obtain ⟨as, i, e, rfl⟩ := hsole
      obtain rfl : i = false := hi _ List.mem_cons_self
      cases id with
      | none =>
        rw [guardSole_none] at hqs
        subst hqs
        obtain rfl : e = false := mark_of_inline hinline
        obtain ⟨hlen, halternatives⟩ := (ih _ List.mem_cons_self).alternatives as none false false rfl
        exact item_bracketed none hlen halternatives
      | some x =>
        have hmark : e = true := by
          rcases Pattern.guardSole_cases (some x) qs with ⟨bs, i, e', _, rfl, hguard⟩ | hguard
          · rw [hguard] at hqs
            injection hqs with hqs
            injection hqs
          · rw [hguard] at hqs
            subst hqs
            injection hguard with hguard
            injection hguard with _ _ _ hmark
            exact hmark.symm
        subst hmark
        exact item_optional (items_of_derived hne ih (List.forall_mem_singleton.mpr ⟨rfl, rfl⟩)) (some x)
    · have hps : ps = qs := by
        rcases Pattern.guardSole_cases id qs with ⟨as, i, e, _, _, hguard⟩ | hguard
        · exact absurd ⟨as, i, true, hqs.trans hguard⟩ hsole
        · exact hqs.trans hguard
      subst hps
      have henclosed := enclosed_of_inline (fun p hp => (hinline p hp).2) hi fun as i e heq => hsole ⟨as, i, e, heq⟩
      exact item_optional (items_of_derived hne ih henclosed) id

theorem derived_leaf {p : Pattern} (h : Leaf p) (hfits : Fits cs p) : Derived cs p := by
  cases h with
  | literal text caseSensitive tolerant =>
    have hitem : Item cs _ (modified cs text (modifiers caseSensitive tolerant)) := .literal text _
    rw [modified_modifiers hfits] at hitem
    exact .of_item hitem (by simp)
  | parameter name type => exact .of_item (.parameter name type (.spelled type)) (by simp)
  | tail name raw => exact .of_item (.tail name raw) (by simp)

/-- A canonical pattern is derived from its spelling, if nothing in it is bare. -/
theorem derived {p : Pattern} (h : ∀ q ∈ p.nodes, Derivable cs q) : Derived cs p := by
  refine Pattern.nodes_induct (P := Derivable cs) (M := Derived cs) ?_ p h
  intro p hp ih
  cases p with
  | literal => exact derived_leaf (.literal ..) hp.fits
  | parameter => exact derived_leaf (.parameter ..) hp.fits
  | tail => exact derived_leaf (.tail ..) hp.fits
  | sequence ps => exact .of_item (item_sequence (items_of_sequence hp (ih ps List.mem_cons_self))) (by simp)
  | optional ps id => exact derived_optional hp (ih ps List.mem_cons_self)
  | variants as id i e => exact derived_variants hp ih
  | unordered ps id => exact derived_unordered hp (ih ps List.mem_cons_self)

/-! ## Roots -/

/-- At the root, alternatives need no brackets. -/
theorem root_of_derivable {p : Pattern} (h : ∀ q ∈ p.nodes, Derivable cs q) (hplaced : Placed false true p)
    (hi : p.inherits = false) : Root cs (spellingOf (unpacked p)) (unpacked p) := by
  have hp := h p (Pattern.mem_nodes_self p)
  by_cases hbare : ∃ as i e, p = .variants as none i e
  · obtain ⟨as, i, e, rfl⟩ := hbare
    obtain rfl : i = false := hi
    obtain rfl : e = false := by
      injection hplaced with _ _ _ hmark
      exact hmark.symm
    obtain ⟨hlen, halternatives⟩ := (derived h).alternatives as none false false rfl
    have hroot := Root.alternatives halternatives
    rwa [← spellingOf_unbracketed halternatives.ne_nil, unbracketed_of_two hlen] at hroot
  · have hitems : Items cs (spellingOf (unpacked p)) (unpacked p) := by
      cases hseq : p.isSequence with
      | true =>
        cases p with
        | sequence ps =>
          exact items_of_sequence hp fun q hq => derived fun r hr => h r (List.mem_append_left _ (Pattern.mem_nodesOf.mpr ⟨q, hq, hr⟩))
        | _ => cases hseq
      | false =>
        have henclosed := enclosed_of_placed hplaced hi fun _ as i e heq => hbare ⟨as, i, e, heq⟩
        rw [Pattern.unpacked_of_not_sequence hseq]
        exact items_spelling (List.cons_ne_nil _ _) (List.forall_mem_singleton.mpr ((derived h).item henclosed))
    exact .alternatives (.one hitems)

/-- Nothing is derived from a spelling in which alternatives stand alone between braces. -/
theorem not_root_of_bare {p q : Pattern} (hcanonical : q.Canonical) (hformed : ∀ r ∈ q.nodes, r.Formed) (hbare : Bare q)
    (hq : q ∈ p.nodes) (items : List Pattern) : ¬ Root cs (spellingOf (unpacked p)) items := by
  obtain ⟨as, i, e, id, rfl⟩ := hbare
  have hrefused : Refused (spelling (.unordered [.variants as none i e] id)) := by
    obtain ⟨_, hplaced⟩ : Canonical (.unordered [.variants as none i e] id) := hcanonical
    obtain rfl : e = false := by
      injection hplaced _ List.mem_cons_self with _ _ _ hmark
      exact hmark.symm
    have hvariants : (Pattern.variants as none i false).Formed := hformed _ (by simp [Pattern.nodes, Pattern.nodesOf])
    exact refused_of_bare (hvariants.several _ _ _ _ rfl) i id
  have hunpacked : Pattern.unordered [.variants as none i e] id ∈ Pattern.nodesOf (unpacked p) := by
    cases p with
    | sequence ps => simpa [Pattern.nodes, unpacked] using hq
    | _ => simpa [Pattern.nodesOf, unpacked] using hq
  obtain ⟨c, hc, hq⟩ := Pattern.mem_nodesOf.mp hunpacked
  intro hroot
  have hbalanced := hroot.balanced
  rw [refused_spellingOf hc (refused_of_mem_nodes hq hrefused)] at hbalanced
  cases hbalanced

end CommandGrammar.Grammar
