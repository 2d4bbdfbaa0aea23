/-
  CommandGrammar.Proofs.Grammar.Brackets — where brackets and dividers stand.

  Some terminals can be told to be no grammar from the brackets alone: each has to be
  closed in its turn, and no divider may stand directly between braces. Whatever the rules
  derive is balanced in this way (`Root.balanced`). What a pattern is spelled with never
  leaves a bracket open, but it is refused if a variant group that has no brackets of its
  own is spelled between braces (`refused_of_bare`).
-/

import CommandGrammar.Proofs.Grammar.Spelling

namespace CommandGrammar.Grammar

/-! ## Open brackets -/

/-- The brackets that are open behind a terminal, the innermost first. -/
def nestStep (opened : List Bracket) : Terminal → Option (List Bracket)
  | .mark (.opening b) => some (b :: opened)
  | .mark (.closing b) => if opened.head? = some b then some opened.tail else none
  | .mark .divider => if opened.head? = some .unordered then none else some opened
  | _ => some opened

def nest (opened : List Bracket) (ts : List Terminal) : Option (List Bracket) :=
  ts.foldlM nestStep opened

theorem nest_nil (opened : List Bracket) : nest opened [] = some opened :=
  rfl

theorem nest_cons (opened : List Bracket) (t : Terminal) (ts : List Terminal) :
    nest opened (t :: ts) = (nestStep opened t).bind fun opened' => nest opened' ts :=
  List.foldlM_cons

theorem nest_append (opened : List Bracket) (ts us : List Terminal) :
    nest opened (ts ++ us) = (nest opened ts).bind fun opened' => nest opened' us :=
  List.foldlM_append

theorem nest_enclosed (opened : List Bracket) (b : Bracket) (ts : List Terminal) :
    nest opened (enclosed b ts) =
      (nest (b :: opened) ts).bind fun opened' => if opened'.head? = some b then some opened'.tail else none := by
  rw [enclosed, List.cons_append, nest_cons, nestStep, Option.bind_some, nest_append]
  congr 1
  funext opened'
  rw [nest_cons, nestStep]
  split <;> rfl

/-! ## Balanced terminals -/

/-- All brackets that are opened are closed, and no other. -/
def Balanced (ts : List Terminal) : Prop :=
  ∀ opened, nest opened ts = some opened

namespace Balanced

variable {ts us : List Terminal}

theorem nil : Balanced [] :=
  nest_nil

theorem append (ht : Balanced ts) (hu : Balanced us) : Balanced (ts ++ us) := by
  intro opened
  rw [nest_append, ht, Option.bind_some, hu]

/-- Only brackets and dividers are followed. -/
theorem inert (h : ∀ t ∈ ts, ∀ opened, nestStep opened t = some opened) : Balanced ts := by
  intro opened
  induction ts with
  | nil => rfl
  | cons t ts ih =>
    rw [nest_cons, h t List.mem_cons_self, Option.bind_some, ih fun u hu => h u (List.mem_cons_of_mem _ hu)]

theorem enclosed {b : Bracket} (h : ∀ opened, nest (b :: opened) ts = some (b :: opened)) : Balanced (enclosed b ts) := by
  intro opened
  rw [nest_enclosed, h, Option.bind_some]
  exact if_pos rfl

theorem suffix (id : Option Bytes) : Balanced (suffix id) := by
  refine inert ?_
  cases id <;> simp [Grammar.suffix, nestStep]

end Balanced

theorem Suffix.balanced {us : List Terminal} {id : Option Bytes} (h : Suffix us id) : Balanced us := by
  cases h with
  | absent => exact Balanced.nil
  | present text => exact Balanced.suffix (some text)

theorem balanced_enclosed_suffix {b : Bracket} {ts us : List Terminal} {id : Option Bytes}
    (h : ∀ opened, nest (b :: opened) ts = some (b :: opened)) (hs : Suffix us id) :
    Balanced (.mark (.opening b) :: ts ++ .mark (.closing b) :: us) := by
  rw [← enclosed_append]
  exact (Balanced.enclosed h).append hs.balanced

theorem literal_balanced (text : Bytes) (ms : List Modifier) :
    Balanced (.symbol text :: ms.map fun m => .mark m.mark) := by
  refine Balanced.inert (List.forall_mem_cons.mpr ⟨fun _ => rfl, List.forall_mem_map.mpr fun m _ => ?_⟩)
  cases m <;> exact fun _ => rfl

theorem parameter_balanced {us : List Terminal} {type : Option Bytes} (name : Bytes) (h : Suffix us type) :
    Balanced (.mark .parameterOpening :: .symbol name :: us ++ [.mark .parameterClosing]) := by
  have hname : Balanced [.mark .parameterOpening, .symbol name] := Balanced.inert (by simp [nestStep])
  have hclose : Balanced [.mark .parameterClosing] := Balanced.inert (by simp [nestStep])
  exact (hname.append h.balanced).append hclose

theorem tail_balanced (name : Bytes) (raw : Bool) :
    Balanced (.mark .parameterOpening :: .symbol name :: .mark .tail :: rawMark raw ++ [.mark .parameterClosing]) := by
  refine Balanced.inert ?_
  cases raw <;> simp [rawMark, nestStep]

variable {cs : Bool}

mutual

/-- Whatever the rules derive is balanced; between braces there are no alternatives. -/
theorem Item.balanced {ts : List Terminal} {p : Pattern} (h : Item cs ts p) : Balanced ts := by
  match h with
  | .literal text ms => exact literal_balanced text ms
  | .parameter name _ hs => exact parameter_balanced name hs
  | .tail name raw => exact tail_balanced name raw
  | .parenthesized ha hs _ => exact balanced_enclosed_suffix (fun opened => ha.balanced _ (by simp)) hs
  | .bracketed ha hs => exact balanced_enclosed_suffix (fun opened => ha.balanced _ (by simp)) hs
  | .braced hi hs => exact balanced_enclosed_suffix (fun opened => hi.balanced _) hs

theorem Items.balanced {ts : List Terminal} {ps : List Pattern} (h : Items cs ts ps) : Balanced ts := by
  match h with
  | .one hi => exact hi.balanced
  | .more hs hi => exact hs.balanced.append hi.balanced

theorem Alternatives.balanced {ts : List Terminal} {as : List (List Pattern)} (h : Alternatives cs ts as)
    (opened : List Bracket) (ho : opened.head? ≠ some .unordered) : nest opened ts = some opened := by
  match h with
  | .one hi => exact hi.balanced opened
  | .more ha hi => rw [nest_append, ha.balanced opened ho, Option.bind_some, nest_cons, nestStep, if_neg ho, Option.bind_some,
      hi.balanced]

end

theorem Root.balanced {ts : List Terminal} {items : List Pattern} (h : Root cs ts items) : nest [] ts = some [] := by
  cases h with
  | empty => rfl
  | alternatives ha => exact ha.balanced [] (by simp)

/-! ## Neutral and refused terminals -/

/-- The terminals leave the brackets as they found them, if they get through at all. -/
def Neutral (ts : List Terminal) : Prop :=
  ∀ opened opened', nest opened ts = some opened' → opened' = opened

/-- The terminals get through nowhere. -/
def Refused (ts : List Terminal) : Prop :=
  ∀ opened, nest opened ts = none

theorem Balanced.neutral {ts : List Terminal} (h : Balanced ts) : Neutral ts := by
  intro opened opened' hn
  rw [h] at hn
  exact (Option.some.inj hn).symm

namespace Neutral

variable {ts us : List Terminal}

theorem append (ht : Neutral ts) (hu : Neutral us) : Neutral (ts ++ us) := by
  intro opened opened' h
  rw [nest_append] at h
  obtain ⟨mid, hmid, h⟩ := Option.bind_eq_some_iff.mp h
  rw [hu _ _ h, ht _ _ hmid]

theorem enclosed (b : Bracket) (h : Neutral ts) : Neutral (enclosed b ts) := by
  intro opened opened' hn
  rw [nest_enclosed] at hn
  obtain ⟨mid, hmid, hn⟩ := Option.bind_eq_some_iff.mp hn
  rw [h _ _ hmid, List.head?_cons, if_pos rfl, List.tail_cons] at hn
  exact (Option.some.inj hn).symm

theorem divider (h : Neutral ts) : Neutral (.mark .divider :: ts) := by
  intro opened opened' hn
  rw [nest_cons, nestStep] at hn
  split at hn
  · cases hn
  · exact h _ _ hn

theorem divided {each : List (List Terminal)} (h : ∀ ts ∈ each, Neutral ts) : Neutral (divided each) := by
  unfold Grammar.divided
  induction each with
  | nil => exact Balanced.nil.neutral
  | cons ts each ih =>
    obtain ⟨ht, heach⟩ := List.forall_mem_cons.mp h
    cases each with
    | nil => rwa [List.intercalate_singleton]
    | cons us each =>
      rw [List.intercalate_cons_cons, List.append_assoc]
      exact ht.append (ih heach).divider

end Neutral

namespace Refused

variable {ts us : List Terminal}

theorem append_left (h : Refused ts) (us : List Terminal) : Refused (ts ++ us) := by
  intro opened
  rw [nest_append, h]
  rfl

theorem append_right (ts : List Terminal) (h : Refused us) : Refused (ts ++ us) := by
  intro opened
  rw [nest_append]
  cases nest opened ts with
  | none => rfl
  | some mid => exact h mid

theorem enclosed (b : Bracket) (h : Refused ts) : Refused (enclosed b ts) := by
  intro opened
  rw [nest_enclosed, h]
  rfl

theorem divided {each : List (List Terminal)} (hmem : ts ∈ each) (h : Refused ts) : Refused (divided each) := by
  unfold Grammar.divided
  induction each with
  | nil => cases hmem
  | cons us each ih =>
    cases each with
    | nil =>
      rw [List.mem_singleton.mp hmem] at h
      rwa [List.intercalate_singleton]
    | cons vs each =>
      rw [List.intercalate_cons_cons, List.append_assoc]
      rcases List.mem_cons.mp hmem with rfl | hmem
      · exact h.append_left _
      · exact ((ih hmem).append_right [.mark .divider]).append_right us

end Refused

/-! ## Spellings -/

theorem neutral_spellingOf {ps : List Pattern} (h : ∀ p ∈ ps, Neutral (spelling p)) : Neutral (spellingOf ps) := by
  induction ps with
  | nil => exact Balanced.nil.neutral
  | cons p ps ih =>
    obtain ⟨hp, hps⟩ := List.forall_mem_cons.mp h
    exact hp.append (ih hps)

theorem neutral_spellingOfEach {as : List (List Pattern)} (h : ∀ a ∈ as, ∀ p ∈ a, Neutral (spelling p)) :
    ∀ ts ∈ spellingOfEach as, Neutral ts := by
  rw [spellingOfEach_eq_map]
  exact List.forall_mem_map.mpr fun a ha => neutral_spellingOf (h a ha)

theorem neutral_spelling (p : Pattern) : Neutral (spelling p) := by
  induction p using Pattern.children_induct with | step p ih => ?_
  cases p with
  | literal text caseSensitive tolerant => exact (literal_balanced text _).neutral
  | parameter name type => exact (parameter_balanced name (.spelled type)).neutral
  | tail name raw => exact (tail_balanced name raw).neutral
  | sequence cs => exact (neutral_spellingOf (ih cs List.mem_cons_self)).enclosed .sequence
  | optional cs id =>
    exact ((neutral_spellingOf (ih cs List.mem_cons_self)).enclosed .optional).append (Balanced.suffix _).neutral
  | variants as id inherited parenthesized =>
    have hinside : Neutral (divided (spellingOfEach as)) := Neutral.divided (neutral_spellingOfEach ih)
    rw [spelling]
    generalize (if inherited then none else id) = own
    refine Neutral.append ?_ (Balanced.suffix _).neutral
    split
    · exact hinside.enclosed .sequence
    · exact hinside
  | unordered cs id =>
    exact ((neutral_spellingOf (ih cs List.mem_cons_self)).enclosed .unordered).append (Balanced.suffix _).neutral

theorem refused_spellingOf {ps : List Pattern} {p : Pattern} (hp : p ∈ ps) (h : Refused (spelling p)) :
    Refused (spellingOf ps) := by
  obtain ⟨before, after, rfl⟩ := List.append_of_mem hp
  rw [spellingOf_eq_flatMap, List.flatMap_append, List.flatMap_cons]
  exact (h.append_left _).append_right _

/-- A pattern is refused if one of its children is. -/
theorem refused_of_child {p c : Pattern} {cs : List Pattern} (hcs : cs ∈ p.childLists) (hc : c ∈ cs)
    (h : Refused (spelling c)) : Refused (spelling p) := by
  have hlist : Refused (spellingOf cs) := refused_spellingOf hc h
  cases p with
  | literal => cases hcs
  | parameter => cases hcs
  | tail => cases hcs
  | sequence ds =>
    rw [List.mem_singleton.mp hcs] at hlist
    exact hlist.enclosed .sequence
  | optional ds id =>
    rw [List.mem_singleton.mp hcs] at hlist
    exact (hlist.enclosed .optional).append_left _
  | variants as id inherited parenthesized =>
    have hmem : spellingOf cs ∈ spellingOfEach as := by
      rw [spellingOfEach_eq_map]
      exact List.mem_map_of_mem hcs
    have hinside := hlist.divided hmem
    rw [spelling]
    generalize (if inherited then none else id) = own
    refine Refused.append_left ?_ _
    split
    · exact hinside.enclosed .sequence
    · exact hinside
  | unordered ds id =>
    rw [List.mem_singleton.mp hcs] at hlist
    exact (hlist.enclosed .unordered).append_left _

theorem refused_of_mem_nodes {p q : Pattern} (hq : q ∈ p.nodes) (h : Refused (spelling q)) : Refused (spelling p) := by
  induction p using Pattern.children_induct with | step p ih => ?_
  rw [Pattern.nodes_eq, List.mem_append, List.mem_singleton] at hq
  rcases hq with hq | rfl
  · obtain ⟨cs, hcs, hq⟩ := Pattern.mem_nodesOfEach.mp hq
    obtain ⟨c, hc, hq⟩ := Pattern.mem_nodesOf.mp hq
    exact refused_of_child hcs hc (ih cs hcs c hc hq)
  · exact h

/-- Alternatives without brackets of their own are refused between braces, at the latest at the first divider. -/
theorem refused_of_bare {as : List (List Pattern)} (h : 2 ≤ as.length) (inherited : Bool) (id : Option Bytes) :
    Refused (spelling (.unordered [.variants as none inherited false] id)) := by
  match as, h with
  | a :: b :: as, _ =>
    refine Refused.append_left (fun opened => ?_) _
    have hinside : spellingOf [.variants (a :: b :: as) none inherited false] =
        spellingOf a ++ .mark .divider :: divided (spellingOfEach (b :: as)) := by
      rw [spellingOf_single, spelling]
      simp [suffix, divided, spellingOfEach, List.intercalate_cons_cons]
    rw [nest_enclosed, hinside, nest_append]
    cases ha : nest (.unordered :: opened) (spellingOf a) with
    | none => rfl
    | some opened' =>
      rw [neutral_spellingOf (fun p _ => neutral_spelling p) _ _ ha]
      rfl

end CommandGrammar.Grammar
