/-
  CommandGrammar.Proofs.Pattern.Writing — what a pattern is apart from how it is written.

  Two patterns are the same if and only if they are equal once the flags of all variant
  groups are cleared (`same_iff`). Flattening reads these flags: a variant group gives way
  to its variants unless it is enclosed. But it sets them before it reads them, and the
  flag of a group without an identifier comes from its place alone. So the flattened
  pattern can be told, up to the flags of identified groups, from the pattern without
  flags (`flattenIn_cleared`), and patterns that are the same stay the same (`flatten_same`).
-/

import CommandGrammar.Proofs.Pattern.Flatten

namespace CommandGrammar.Pattern

/-! ## Flags -/

section

variable (mark : Option Bytes → Bool → Bool)

mutual

/-- The pattern with every identifier written on its own group, and with the variant groups enclosed as `mark` says. -/
def remark : Pattern → Pattern
  | .sequence cs => .sequence (remarkEach cs)
  | .optional cs id => .optional (remarkEach cs) id
  | .variants as id _ parenthesized => .variants (remarkVariants as) id false (mark id parenthesized)
  | .unordered cs id => .unordered (remarkEach cs) id
  | p => p

def remarkEach : List Pattern → List Pattern
  | [] => []
  | c :: cs => remark c :: remarkEach cs

def remarkVariants : List (List Pattern) → List (List Pattern)
  | [] => []
  | a :: as => remarkEach a :: remarkVariants as

end

theorem remarkEach_eq_map (cs : List Pattern) : remarkEach mark cs = cs.map (remark mark) := by
  induction cs with
  | nil => rfl
  | cons c cs ih => rw [remarkEach, ih, List.map_cons]

theorem remarkVariants_eq_map (as : List (List Pattern)) : remarkVariants mark as = as.map (List.map (remark mark)) := by
  induction as with
  | nil => rfl
  | cons a as ih => rw [remarkVariants, ih, remarkEach_eq_map, List.map_cons]

theorem remark_leaf {p : Pattern} (h : Leaf p) : remark mark p = p := by
  cases h <;> rfl

theorem remark_sequence (cs : List Pattern) : remark mark (.sequence cs) = .sequence (cs.map (remark mark)) := by
  rw [remark, remarkEach_eq_map]

theorem remark_optional (cs : List Pattern) (id : Option Bytes) :
    remark mark (.optional cs id) = .optional (cs.map (remark mark)) id := by
  rw [remark, remarkEach_eq_map]

theorem remark_variants (as : List (List Pattern)) (id : Option Bytes) (inherited parenthesized : Bool) :
    remark mark (.variants as id inherited parenthesized) =
      .variants (as.map (List.map (remark mark))) id false (mark id parenthesized) := by
  rw [remark, remarkVariants_eq_map]

theorem remark_unordered (cs : List Pattern) (id : Option Bytes) :
    remark mark (.unordered cs id) = .unordered (cs.map (remark mark)) id := by
  rw [remark, remarkEach_eq_map]

end

/-- No group is enclosed. -/
def cleared : Option Bytes → Bool → Bool :=
  fun _ _ => false

/-- Every group with an identifier is enclosed, as it is where the identifier is written on the group. -/
def identified : Option Bytes → Bool → Bool :=
  fun id parenthesized => parenthesized || id.isSome

/-- Once the flags are cleared it does not matter what they were set to before. -/
theorem remark_cleared (mark : Option Bytes → Bool → Bool) (p : Pattern) : (p.remark mark).remark cleared = p.remark cleared := by
  induction p using children_induct with | step p ih => ?_
  have hlist : ∀ cs ∈ p.childLists, (cs.map (remark mark)).map (remark cleared) = cs.map (remark cleared) := by
    intro cs hcs
    rw [List.map_map]
    exact List.map_congr_left (ih cs hcs)
  cases p with
  | literal => rfl
  | parameter => rfl
  | tail => rfl
  | sequence cs => simp only [remark_sequence, hlist cs List.mem_cons_self]
  | optional cs id => simp only [remark_optional, hlist cs List.mem_cons_self]
  | variants as id inherited parenthesized =>
    have hvariants : (as.map (List.map (remark mark))).map (List.map (remark cleared)) = as.map (List.map (remark cleared)) := by
      rw [List.map_map]
      exact List.map_congr_left hlist
    simp only [remark_variants, hvariants]
    rfl
  | unordered cs id => simp only [remark_unordered, hlist cs List.mem_cons_self]

/-! ## Equality up to writing -/

/-- The patterns are the same if and only if nothing but flags tells them apart. -/
def SameIff (p : Pattern) : Prop :=
  ∀ q, p.same q = true ↔ p.remark cleared = q.remark cleared

theorem sameList_iff {cs : List Pattern} (h : ∀ c ∈ cs, SameIff c) :
    ∀ ds, sameList cs ds = true ↔ cs.map (remark cleared) = ds.map (remark cleared) := by
  induction cs with
  | nil =>
    intro ds
    cases ds <;> simp [sameList]
  | cons c cs ih =>
    have hcs := ih fun d hd => h d (List.mem_cons_of_mem c hd)
    intro ds
    cases ds with
    | nil => simp [sameList]
    | cons d ds => simp [sameList, h c List.mem_cons_self d, hcs ds]

theorem sameAlternatives_iff (as : List (List Pattern)) (h : ∀ a ∈ as, ∀ c ∈ a, SameIff c) :
    ∀ bs, sameAlternatives as bs = true ↔ as.map (List.map (remark cleared)) = bs.map (List.map (remark cleared)) := by
  induction as with
  | nil =>
    intro bs
    cases bs <;> simp [sameAlternatives]
  | cons a as ih =>
    have has := ih fun b hb => h b (List.mem_cons_of_mem a hb)
    intro bs
    cases bs with
    | nil => simp [sameAlternatives]
    | cons b bs => simp [sameAlternatives, sameList_iff (h a List.mem_cons_self) b, has bs]

theorem same_iff (p : Pattern) : SameIff p := by
  induction p using children_induct with | step p ih => ?_
  intro q
  cases p with
  | literal t c o => cases q <;> simp [same, remark, and_assoc]
  | parameter n t => cases q <;> simp [same, remark]
  | tail n r => cases q <;> simp [same, remark]
  | sequence cs =>
    cases q with
    | sequence ds => rw [same, sameList_iff (ih cs List.mem_cons_self), remark_sequence, remark_sequence, sequence.injEq]
    | _ => simp [same, remark]
  | optional cs id =>
    cases q with
    | optional ds id' =>
      rw [same, Bool.and_eq_true, beq_iff_eq, sameList_iff (ih cs List.mem_cons_self), remark_optional, remark_optional,
        optional.injEq, and_comm]
    | _ => simp [same, remark]
  | variants as id inherited parenthesized =>
    cases q with
    | variants bs id' inherited' parenthesized' =>
      rw [same, Bool.and_eq_true, beq_iff_eq, sameAlternatives_iff as ih, remark_variants, remark_variants, variants.injEq]
      constructor
      · rintro ⟨hid, has⟩
        exact ⟨has, hid, rfl, rfl⟩
      · rintro ⟨has, hid, -⟩
        exact ⟨hid, has⟩
    | _ => simp [same, remark]
  | unordered cs id =>
    cases q with
    | unordered ds id' =>
      rw [same, Bool.and_eq_true, beq_iff_eq, sameList_iff (ih cs List.mem_cons_self), remark_unordered, remark_unordered,
        unordered.injEq, and_comm]
    | _ => simp [same, remark]

/-! ## Flattening -/

theorem unpacked_remark (mark : Option Bytes → Bool → Bool) (p : Pattern) :
    unpacked (p.remark mark) = (unpacked p).map (remark mark) := by
  cases p with
  | sequence cs => rw [remark_sequence, unpacked, unpacked]
  | _ => rfl

/-- The list holds a sole variant group without an identifier. -/
def SoleChoice (cs : List Pattern) : Prop :=
  ∃ as inherited parenthesized, cs = [.variants as none inherited parenthesized]

theorem soleChoice_remark (mark : Option Bytes → Bool → Bool) {cs : List Pattern} (h : SoleChoice (cs.map (remark mark))) :
    SoleChoice cs := by
  obtain ⟨as, inherited, parenthesized, h⟩ := h
  match cs with
  | [.variants as none inherited parenthesized] => exact ⟨as, inherited, parenthesized, rfl⟩
  | [.variants _ (some _) _ _] => simp [remark_variants] at h
  | [] => cases h
  | _ :: _ :: _ => simp at h
  | [.sequence _] | [.optional _ _] | [.unordered _ _] | [.literal ..] | [.parameter ..] | [.tail ..] => simp [remark] at h

theorem guardSole_of_not_soleChoice (id : Option Bytes) {cs : List Pattern} (h : ¬ SoleChoice cs) : guardSole id cs = cs := by
  unfold guardSole
  split
  · exact absurd ⟨_, _, _, rfl⟩ h
  · rfl

theorem mergedVariant_of_not_soleChoice {cs : List Pattern} (h : ¬ SoleChoice cs) : mergedVariant cs = [cs] := by
  unfold mergedVariant
  split
  · exact absurd ⟨_, _, _, rfl⟩ h
  · rfl

theorem guardSole_identified (id : Option Bytes) (cs : List Pattern) :
    guardSole id (cs.map (remark identified)) = (guardSole id cs).map (remark identified) := by
  by_cases h : SoleChoice cs
  · obtain ⟨as, inherited, parenthesized, rfl⟩ := h
    cases id <;> simp [guardSole, remark_variants, identified]
  · rw [guardSole_of_not_soleChoice id h, guardSole_of_not_soleChoice id fun hs => h (soleChoice_remark identified hs)]

/-- The flag that decides whether a group gives way to its variants is left as it is. -/
theorem mergedVariant_identified (cs : List Pattern) :
    mergedVariant (cs.map (remark identified)) = (mergedVariant cs).map (List.map (remark identified)) := by
  by_cases h : SoleChoice cs
  · obtain ⟨as, inherited, parenthesized, rfl⟩ := h
    cases parenthesized <;> simp [mergedVariant, remark_variants, identified]
  · rw [mergedVariant_of_not_soleChoice h, mergedVariant_of_not_soleChoice fun hs => h (soleChoice_remark identified hs)]
    rfl

/-- A list of children is filled alike, if the children are flattened alike. -/
theorem inlined_cleared {cs : List Pattern}
    (h : ∀ c ∈ cs, ∀ nested sole, (flattenIn nested sole c).remark identified = flattenIn nested sole (c.remark cleared)) :
    inlined (cs.map (remark cleared)) = (inlined cs).map (remark identified) := by
  rw [inlined_eq_flatMap, inlined_eq_flatMap, List.length_map, List.flatMap_map, List.map_flatMap]
  refine List.flatMap_congr fun c hc => ?_
  rw [← h c hc, unpacked_remark]

theorem Wraps.remark {p c : Pattern} (h : Wraps p c) (mark : Option Bytes → Bool → Bool) :
    Wraps (p.remark mark) (c.remark mark) := by
  cases h with
  | sequence => exact .sequence _
  | variants => exact .variants _ _ _
  | unordered => exact .unordered _

/-- Up to the flags of identified groups, the flattened pattern can be told without the flags of the pattern. -/
theorem flattenIn_cleared (p : Pattern) (nested sole : Bool) :
    (flattenIn nested sole p).remark identified = flattenIn nested sole (p.remark cleared) := by
  induction p using children_induct generalizing nested sole with | step p ih => ?_
  refine (Flattens.eq ?_).symm
  have hp := flattens nested sole p
  generalize flattenIn nested sole p = r at hp
  cases hp with
  | leaf h =>
    rw [remark_leaf _ h, remark_leaf _ h]
    exact .leaf h
  | unwrap h =>
    have hwraps := h.remark cleared
    cases h <;> (rw [ih _ List.mem_cons_self _ List.mem_cons_self]; exact .unwrap hwraps)
  | sequence cs hlen =>
    rw [remark_sequence, remark_sequence, ← inlined_cleared (ih cs List.mem_cons_self)]
    exact .sequence _ (by rwa [List.length_map])
  | variant cs inherited parenthesized hlen =>
    rw [remark_variants, remark_sequence, ← inlined_cleared (ih cs List.mem_cons_self)]
    exact .variant _ _ _ (by rwa [List.length_map])
  | optional cs id =>
    rw [remark_optional, remark_optional, ← guardSole_identified, ← inlined_cleared (ih cs List.mem_cons_self)]
    exact .optional _ id
  | variants as id inherited parenthesized hlen =>
    have hvariants : (as.flatMap fun a => mergedVariant (inlined a)).map (List.map (remark identified)) =
        (as.map (List.map (remark cleared))).flatMap fun a => mergedVariant (inlined a) := by
      rw [List.map_flatMap, List.flatMap_map]
      refine List.flatMap_congr fun a ha => ?_
      rw [inlined_cleared (ih a ha), mergedVariant_identified]
    -- an identifier that was inherited is now the group's own, and the mark says so on both sides
    have hmark : identified id ((nested && !sole) || (id.isSome && !inherited)) =
        ((nested && !sole) || (id.isSome && !false)) := by
      cases id <;> simp [identified]
    rw [remark_variants, remark_variants, hvariants, hmark]
    exact .variants _ id _ _ (by rwa [List.length_map])
  | unordered cs id hlen =>
    have hchildren : (cs.map (flattenIn true (cs.length == 1))).map (remark identified) =
        (cs.map (remark cleared)).map (flattenIn true ((cs.map (remark cleared)).length == 1)) := by
      rw [List.map_map, List.map_map, List.length_map]
      exact List.map_congr_left fun c hc => ih cs List.mem_cons_self c hc true _
    rw [remark_unordered, remark_unordered, hchildren]
    exact .unordered _ id (by rwa [List.length_map])

/-- Patterns that are the same stay the same. -/
theorem flatten_same {p q : Pattern} (h : p.same q = true) : p.flatten.same q.flatten = true := by
  have hflat : ∀ p : Pattern, p.flatten.remark cleared = (p.remark cleared).flatten.remark cleared := by
    intro p
    rw [flatten, flatten, ← flattenIn_cleared, remark_cleared]
  rw [same_iff] at h ⊢
  rw [hflat p, hflat q, h]

end CommandGrammar.Pattern
