/-
  CommandGrammar.Proofs.Matching.Accounts — what is found in a match that succeeds.

  Every required pattern of a derivation is accounted for by what it finds: what has a name
  has an entry that suits it, and what has none has its record by position
  (`Derives.accounts`). This needs distinct names, as of two findings under one name the
  later wins. Nothing is found under a name that the pattern does not give.
-/

import CommandGrammar.Proofs.Call.Words
import CommandGrammar.Proofs.Matching.Entries
import CommandGrammar.Proofs.Matching.Soundness

namespace CommandGrammar

open Pattern (Slot namesOf nodesOf nodesOfEach requiredOf)

/-- What may be found under the name of a pattern, in a call with the given tokens. -/
inductive Entry.Suits (types : Types) (tokens : List Call.Token) : Pattern → Entry → Prop
  | word (name : Bytes) {t : Call.Token} : t ∈ tokens → Suits types tokens (.parameter name none) (.value (.str t.value))
  | typed (name : Bytes) {type : Bytes} {convert : Converter} {t : Call.Token} {v : Value} : types.get? type = some convert →
      t ∈ tokens → convert t.value = .ok v → Suits types tokens (.parameter name (some type)) (.value v)
  | list (name : Bytes) {texts : List Bytes} : texts ≠ [] → Suits types tokens (.tail name false) (.value (.list texts))
  | text (name : Bytes) {text : Bytes} : text ≠ [] → Suits types tokens (.tail name true) (.value (.str text))
  | optional (cs : List Pattern) (id : Option Bytes) (present : Bool) :
      Suits types tokens (.optional cs id) (.record (.optional present))
  | variant {as : List (List Pattern)} (id : Option Bytes) (inherited parenthesized : Bool) {index : Nat} :
      index < as.length → Suits types tokens (.variants as id inherited parenthesized) (.record (.variant index))
  | order {cs : List Pattern} (id : Option Bytes) {order : List Nat} : order.Perm (List.range cs.length) →
      Suits types tokens (.unordered cs id) (.record (.order order))

/-! ## Accounts -/

/-- The findings account for the required patterns, and name nothing but what is named in the nodes. -/
structure Accounts (types : Types) (tokens : List Call.Token) (nodes required : List Pattern) (f : Findings) : Prop where
  found : ∀ q ∈ required, ∀ s ∈ q.slot?, ∃ e, f.finding? s = some e ∧ Entry.Suits types tokens q e
  known : ∀ s e, f.finding? s = some e → ∃ q ∈ nodes, q.slot? = some s
  optionals : required.countP Pattern.isUnnamedOptional ≤ f.optionals.length
  variants : required.countP Pattern.isUnnamedVariants ≤ f.variants.length

/-- No name is given on both sides. -/
def Apart (ps qs : List Pattern) : Prop :=
  ∀ p ∈ ps, ∀ q ∈ qs, ∀ s ∈ p.slot?, q.slot? ≠ some s

theorem apart_of_nodup {ps qs : List Pattern} (h : ((ps ++ qs).filterMap Pattern.name?).Nodup) : Apart ps qs := by
  rw [List.filterMap_append, List.nodup_append] at h
  intro p hp q hq s hs hqs
  have hname : ∀ {r : Pattern}, r.slot? = some s → r.name? = some s.2 := by
    intro r hr
    rw [r.name?_eq_slot?, hr]
    rfl
  exact h.2.2 s.2 (List.mem_filterMap.mpr ⟨p, hp, hname hs⟩) s.2 (List.mem_filterMap.mpr ⟨q, hq, hname hqs⟩) rfl

namespace Accounts

variable {types : Types} {tokens : List Call.Token} {nodes nodes' required required' : List Pattern} {f g : Findings}

theorem nothing : Accounts types tokens [] [] {} where
  found := by simp
  known := by simp
  optionals := by simp
  variants := by simp

theorem perm (h : Accounts types tokens nodes required f) (hnodes : nodes.Perm nodes') (hrequired : required.Perm required') :
    Accounts types tokens nodes' required' f where
  found q hq := h.found q (hrequired.mem_iff.mpr hq)
  known s e he := by
    obtain ⟨q, hq, hs⟩ := h.known s e he
    exact ⟨q, hnodes.mem_iff.mp hq, hs⟩
  optionals := by rw [← hrequired.countP_eq]; exact h.optionals
  variants := by rw [← hrequired.countP_eq]; exact h.variants

/-- What need not be found may be dropped, and other nodes added. -/
theorem weaken (h : Accounts types tokens nodes required f) (hnodes : nodes ⊆ nodes') (hrequired : required'.Sublist required) :
    Accounts types tokens nodes' required' f where
  found q hq := h.found q (hrequired.subset hq)
  known s e he := by
    obtain ⟨q, hq, hs⟩ := h.known s e he
    exact ⟨q, hnodes hq, hs⟩
  optionals := hrequired.countP_le.trans h.optionals
  variants := hrequired.countP_le.trans h.variants

/-- Two accounts are merged if they share no name. -/
theorem merge (hf : Accounts types tokens nodes required f) (hg : Accounts types tokens nodes' required' g)
    (hrequired : required ⊆ nodes) (hapart : Apart nodes nodes') :
    Accounts types tokens (nodes ++ nodes') (required ++ required') (f.merge g) where
  found q hq s hs := by
    rw [Findings.finding?_merge]
    rcases List.mem_append.mp hq with hq | hq
    · obtain ⟨e, he, hsuits⟩ := hf.found q hq s hs
      have hnone : g.finding? s = none := by
        rw [Option.eq_none_iff_forall_ne_some]
        intro e' he'
        -- what is found later under this name would be found for a pattern with this name
        obtain ⟨q', hq', hs'⟩ := hg.known s e' he'
        exact hapart q (hrequired hq) q' hq' s hs hs'
      rw [hnone, Option.none_or]
      exact ⟨e, he, hsuits⟩
    · obtain ⟨e, he, hsuits⟩ := hg.found q hq s hs
      rw [he]
      exact ⟨e, rfl, hsuits⟩
  known s e he := by
    rw [Findings.finding?_merge, Option.or_eq_some_iff] at he
    rcases he with he | ⟨-, he⟩
    · obtain ⟨q, hq, hs⟩ := hg.known s e he
      exact ⟨q, List.mem_append_right _ hq, hs⟩
    · obtain ⟨q, hq, hs⟩ := hf.known s e he
      exact ⟨q, List.mem_append_left _ hq, hs⟩
  optionals := by
    have hopts := hf.optionals
    have hopts' := hg.optionals
    rw [List.countP_append, Findings.merge, List.length_append]
    omega
  variants := by
    have hvars := hf.variants
    have hvars' := hg.variants
    rw [List.countP_append, Findings.merge, List.length_append]
    omega

/-- A pattern with a name and its entry. -/
theorem of_sole {p : Pattern} {s : Slot × Bytes} {e : Entry} (hs : p.slot? = some s) (hf : f.Sole s e)
    (hsuits : Entry.Suits types tokens p e) : Accounts types tokens [p] [p] f where
  found := by
    intro q hq s' hs'
    obtain rfl := List.mem_singleton.mp hq
    obtain rfl := Option.some.inj (hs.symm.trans hs')
    exact ⟨e, by rw [hf, if_pos rfl], hsuits⟩
  known := by
    intro s' e' he'
    rw [hf] at he'
    split at he'
    · rename_i heq
      exact ⟨p, List.mem_cons_self, by rw [heq, hs]⟩
    · cases he'
  optionals := by
    have hnamed : p.isUnnamedOptional = false := by
      rcases p with _ | _ | _ | _ | ⟨_, _ | _⟩ | _ | _ <;> first | rfl | cases hs
    simp [hnamed]
  variants := by
    have hnamed : p.isUnnamedVariants = false := by
      rcases p with _ | _ | _ | _ | _ | ⟨_, _ | _, _, _⟩ | _ <;> first | rfl | cases hs
    simp [hnamed]

/-- A pattern without a name, of which at most a record by position is kept. -/
theorem of_unnamed {p : Pattern} (hs : p.slot? = none) (hf : ∀ s, f.finding? s = none)
    (hoptionals : [p].countP Pattern.isUnnamedOptional ≤ f.optionals.length)
    (hvariants : [p].countP Pattern.isUnnamedVariants ≤ f.variants.length) : Accounts types tokens [p] [p] f where
  found := by simp [hs]
  known := by simp [hf]
  optionals := hoptionals
  variants := hvariants

theorem of_nothing {p : Pattern} (hs : p.slot? = none) (hoptional : p.isUnnamedOptional = false)
    (hvariants : p.isUnnamedVariants = false) : Accounts types tokens [p] [p] {} :=
  of_unnamed hs Findings.finding?_nothing (by simp [hoptional]) (by simp [hvariants])

end Accounts

/-! ## The record of one group -/

section

variable (types : Types) (tokens : List Call.Token)

theorem optional_accounts (cs : List Pattern) (id : Option Bytes) (present : Bool) :
    Accounts types tokens [.optional cs id] [.optional cs id] (({} : Findings).recordOptional id present) := by
  cases id with
  | none => exact .of_unnamed rfl Findings.finding?_nothing (Nat.le_refl _) (Nat.le_refl _)
  | some id => exact .of_sole rfl (Findings.recordOptional_sole id present) (.optional cs (some id) present)

theorem variants_accounts {as : List (List Pattern)} (id : Option Bytes) (inherited parenthesized : Bool) {index : Nat}
    (hindex : index < as.length) :
    Accounts types tokens [.variants as id inherited parenthesized] [.variants as id inherited parenthesized]
      (({} : Findings).recordVariant id index) := by
  cases id with
  | none => exact .of_unnamed rfl Findings.finding?_nothing (Nat.le_refl _) (Nat.le_refl _)
  | some id =>
    exact .of_sole rfl (Findings.recordVariant_sole id index) (.variant (some id) inherited parenthesized hindex)

theorem unordered_accounts {cs : List Pattern} (id : Option Bytes) {order : List Nat}
    (horder : order.Perm (List.range cs.length)) :
    Accounts types tokens [.unordered cs id] [.unordered cs id] (({} : Findings).recordOrder id order) := by
  cases id with
  | none => exact .of_nothing rfl rfl rfl
  | some id => exact .of_sole rfl (Findings.recordOrder_sole id order) (.order (some id) horder)

end

/-! ## The children of one group -/

theorem Apart.symm {ps qs : List Pattern} (h : Apart ps qs) : Apart qs ps :=
  fun q hq p hp s hs hps => h p hp q hq s hps hs

/-- Names that differ in a pattern differ in each list of its children, and from its own. -/
theorem names_of_childList {p : Pattern} (h : (namesOf [p]).Nodup) {cs : List Pattern} (hcs : cs ∈ p.childLists) :
    (namesOf cs).Nodup ∧ Apart (nodesOf cs) [p] := by
  have hall : namesOf [p] = (nodesOfEach p.childLists ++ [p]).filterMap Pattern.name? := by
    rw [namesOf, nodesOf, nodesOf, List.append_nil, Pattern.nodes_eq]
  have hsub : (nodesOf cs ++ [p]).Sublist (nodesOfEach p.childLists ++ [p]) :=
    (Pattern.nodesOf_sublist hcs).append (List.Sublist.refl _)
  have hnodup : ((nodesOf cs ++ [p]).filterMap Pattern.name?).Nodup := by
    rw [hall] at h
    exact h.sublist (hsub.filterMap _)
  exact ⟨hnodup.sublist ((List.sublist_append_left _ _).filterMap _), apart_of_nodup hnodup⟩

theorem nodup_namesOf_cons {c : Pattern} {cs : List Pattern} (h : (namesOf (c :: cs)).Nodup) :
    (namesOf [c]).Nodup ∧ (namesOf cs).Nodup := by
  have hcons : namesOf (c :: cs) = namesOf [c] ++ namesOf cs := Pattern.namesOf_append [c] cs
  rw [hcons] at h
  obtain ⟨hc, hcs, -⟩ := List.nodup_append.mp h
  exact ⟨hc, hcs⟩

theorem nodup_namesOf_placed {placed : List (Pattern × Nat)} {cs : List Pattern} (hplaced : placed.Perm cs.zipIdx)
    (h : (namesOf cs).Nodup) : (namesOf (placed.map (·.1))).Nodup :=
  ((Pattern.nodesOf_perm (perm_of_zipIdx hplaced)).filterMap _).nodup_iff.mpr h

namespace Accounts

variable {types : Types} {tokens : List Call.Token} {f g : Findings} {p : Pattern} {cs : List Pattern}

/-- A group that may be left out is accounted for by its record, with whatever is found inside. -/
theorem around (hnames : (namesOf [p]).Nodup) (hcs : cs ∈ p.childLists) (hown : Accounts types tokens [p] [p] g)
    (hinside : Accounts types tokens (nodesOf cs) (requiredOf cs) f) : Accounts types tokens p.nodes [p] (g.merge f) := by
  have hapart := (names_of_childList hnames hcs).2
  have hboth := hown.merge (hinside.weaken (List.Subset.refl _) (List.nil_sublist _)) (List.Subset.refl _) hapart.symm
  refine hboth.weaken ?_ (List.Sublist.refl _)
  rw [Pattern.nodes_eq]
  refine List.append_subset.mpr ⟨List.subset_append_right _ _, ?_⟩
  exact List.subset_append_of_subset_left _ (Pattern.nodesOf_sublist hcs).subset

theorem sequence (hnames : (namesOf [.sequence cs]).Nodup) (hinside : Accounts types tokens (nodesOf cs) (requiredOf cs) f) :
    Accounts types tokens (Pattern.sequence cs).nodes (Pattern.sequence cs).required f := by
  have hapart := (names_of_childList hnames List.mem_cons_self).2
  have hown : Accounts types tokens [.sequence cs] [.sequence cs] {} := .of_nothing rfl rfl rfl
  have hboth := hinside.merge hown (Pattern.requiredOf_sublist cs).subset hapart
  rwa [Findings.merge_nothing] at hboth

/-- The children are all there, so it does not matter in which order they come. -/
theorem unordered (strategy : Strategy) (id : Option Bytes) (hnames : (namesOf [.unordered cs id]).Nodup)
    {placed : List (Pattern × Nat)} (hplaced : placed.Perm cs.zipIdx)
    (hinside : Accounts types tokens (nodesOf (placed.map (·.1))) (requiredOf (placed.map (·.1))) f) :
    Accounts types tokens (Pattern.unordered cs id).nodes (Pattern.unordered cs id).required
      (strategy.ordered id (placed.map (·.2)) f) := by
  have hchildren := perm_of_zipIdx hplaced
  have horder := perm_range_of_zipIdx hplaced
  have hapart := (names_of_childList hnames List.mem_cons_self).2
  have hinside' := hinside.perm (Pattern.nodesOf_perm hchildren) (Pattern.requiredOf_perm hchildren)
  have hown := unordered_accounts types tokens id horder
  cases strategy with
  | greedy =>
    rw [Strategy.ordered, Findings.recordOrder_eq_merge]
    exact hinside'.merge hown (Pattern.requiredOf_sublist cs).subset hapart
  | permutation =>
    rw [Strategy.ordered_permutation]
    have hboth := hown.merge hinside' (List.Subset.refl _) hapart.symm
    exact hboth.perm List.perm_append_comm List.perm_append_comm

theorem cons {c : Pattern} (hnames : (namesOf (c :: cs)).Nodup) (hc : Accounts types tokens c.nodes c.required f)
    (hcs : Accounts types tokens (nodesOf cs) (requiredOf cs) g) :
    Accounts types tokens (nodesOf (c :: cs)) (requiredOf (c :: cs)) (f.merge g) :=
  hc.merge hcs (Pattern.required_sublist c).subset (apart_of_nodup hnames)

end Accounts

/-! ## Derivations -/

theorem Types.construct_eq_ok {types : Types} {name text : Bytes} {v : Value} (h : types.construct name text = .ok v) :
    ∃ convert, types.get? name = some convert ∧ convert text = .ok v := by
  unfold construct at h
  split at h
  · cases h
  · rename_i convert hconvert
    exact ⟨convert, hconvert, h⟩

variable {σ : Type} [Score σ] {policy : Policy σ} {raw : Bytes} {tokens : List Call.Token}

mutual

theorem Derives.accounts (hspans : Call.Spans raw.length 0 tokens) {p : Pattern} {l l' : Position} {f : Findings}
    (h : Derives policy raw p l l' f) (htokens : l.tokens <:+ tokens) (hnames : (namesOf [p]).Nodup) :
    Accounts policy.types tokens p.nodes p.required f := by
  match h with
  | .equal _ _ _ => exact .of_nothing rfl rfl rfl
  | .similar _ _ => exact .of_nothing rfl rfl rfl
  | .word name t _ => exact .of_sole rfl (Findings.bind_sole _ _) (.word name (htokens.subset List.mem_cons_self))
  | .typed name _ hv =>
    obtain ⟨convert, hconvert, hv⟩ := Types.construct_eq_ok hv
    exact .of_sole rfl (Findings.bind_sole _ _) (.typed name hconvert (htokens.subset List.mem_cons_self) hv)
  | .list name _ _ => exact .of_sole rfl (Findings.bind_sole _ _) (.list name (List.cons_ne_nil _ _))
  | .text name hlast =>
    obtain ⟨hlt, hstop⟩ := (hspans.suffix htokens).first_last hlast
    exact .of_sole rfl (Findings.bind_sole _ _) (.text name (Call.slice_ne_nil hlt hstop))
  | .sequence hcs =>
    have hdistinct := (names_of_childList hnames List.mem_cons_self).1
    exact .sequence hnames (hcs.accounts hspans htokens hdistinct)
  | .absent cs id ts =>
    refine (optional_accounts _ _ cs id false).weaken ?_ (List.Sublist.refl _)
    exact List.cons_subset.mpr ⟨Pattern.mem_nodes_self _, List.nil_subset _⟩
  | .present id hcs =>
    have hdistinct := (names_of_childList hnames List.mem_cons_self).1
    exact (optional_accounts _ _ _ id true).around hnames List.mem_cons_self (hcs.accounts hspans htokens hdistinct)
  | .variant id inherited parenthesized hi ha =>
    have hmem := List.mem_of_getElem? hi
    have hindex := (List.getElem?_eq_some_iff.mp hi).1
    have hdistinct := (names_of_childList hnames hmem).1
    have hown := variants_accounts policy.types tokens id inherited parenthesized hindex
    exact hown.around hnames hmem (ha.accounts hspans htokens hdistinct)
  | .unordered id hplaced hcs =>
    have hdistinct := (names_of_childList hnames List.mem_cons_self).1
    exact .unordered _ id hnames hplaced (hcs.accounts hspans htokens (nodup_namesOf_placed hplaced hdistinct))

theorem DerivesEach.accounts (hspans : Call.Spans raw.length 0 tokens) {cs : List Pattern} {l l' : Position} {f : Findings}
    (h : DerivesEach policy raw cs l l' f) (htokens : l.tokens <:+ tokens) (hnames : (namesOf cs).Nodup) :
    Accounts policy.types tokens (nodesOf cs) (requiredOf cs) f := by
  match h with
  | .nil _ => exact .nothing
  | .cons hc hcs =>
    obtain ⟨hfirst, hothers⟩ := nodup_namesOf_cons hnames
    exact .cons hnames (hc.accounts hspans htokens hfirst) (hcs.accounts hspans (hc.suffix.trans htokens) hothers)

end

end CommandGrammar
