/-
  CommandGrammar.Proofs.Pattern.Required — what no match of a pattern can leave out.

  A sequence and an unordered group match only if all of their children do, so that the
  patterns that are reached through such groups alone take part in every match
  (`required`). What a pattern is recorded under is its slot: its name, together with the
  kind of record.
-/

import CommandGrammar.Proofs.Pattern.Nodes

namespace CommandGrammar.Pattern

/-! ## Slots -/

/-- The kinds of records that are kept by name. -/
inductive Slot where
  | parameter | optional | variants | unordered
  deriving DecidableEq, Repr

/-- Where the record of a pattern is kept, if it has a name. -/
def slot? : Pattern → Option (Slot × Bytes)
  | .parameter name _ => some (.parameter, name)
  | .tail name _ => some (.parameter, name)
  | .optional _ (some id) => some (.optional, id)
  | .variants _ (some id) _ _ => some (.variants, id)
  | .unordered _ (some id) => some (.unordered, id)
  | _ => none

theorem name?_eq_slot? (p : Pattern) : p.name? = p.slot?.map (·.2) := by
  rcases p with _ | _ | _ | _ | ⟨_, _ | _⟩ | ⟨_, _ | _, _, _⟩ | ⟨_, _ | _⟩ <;> rfl

/-- What is recorded in a slot says which pattern it is. -/
theorem slot?_eq_some {p : Pattern} {slot : Slot} {name : Bytes} (h : p.slot? = some (slot, name)) :
    match slot with
    | .parameter => (∃ type, p = .parameter name type) ∨ ∃ raw, p = .tail name raw
    | .optional => ∃ cs, p = .optional cs (some name)
    | .variants => ∃ as inherited parenthesized, p = .variants as (some name) inherited parenthesized
    | .unordered => ∃ cs, p = .unordered cs (some name) := by
  rcases p with _ | ⟨_, type⟩ | ⟨_, raw⟩ | _ | ⟨cs, _ | _⟩ | ⟨as, _ | _, i, e⟩ | ⟨cs, _ | _⟩ <;> cases h
  · exact .inl ⟨type, rfl⟩
  · exact .inr ⟨raw, rfl⟩
  · exact ⟨cs, rfl⟩
  · exact ⟨as, i, e, rfl⟩
  · exact ⟨cs, rfl⟩

/-- An optional whose record is kept by position. -/
def isUnnamedOptional : Pattern → Bool
  | .optional _ none => true
  | _ => false

/-- A variant group whose record is kept by position. -/
def isUnnamedVariants : Pattern → Bool
  | .variants _ none _ _ => true
  | _ => false

/-! ## Required patterns -/

mutual

/-- The pattern, and what is reached from it through sequences and unordered groups only. -/
def required : Pattern → List Pattern
  | .sequence cs => requiredOf cs ++ [.sequence cs]
  | .unordered cs id => requiredOf cs ++ [.unordered cs id]
  | p => [p]

def requiredOf : List Pattern → List Pattern
  | [] => []
  | c :: cs => required c ++ requiredOf cs

end

theorem requiredOf_eq_flatMap (cs : List Pattern) : requiredOf cs = cs.flatMap required := by
  induction cs with
  | nil => rfl
  | cons c cs ih => rw [requiredOf, ih, List.flatMap_cons]

theorem requiredOf_perm {cs ds : List Pattern} (h : cs.Perm ds) : (requiredOf cs).Perm (requiredOf ds) := by
  rw [requiredOf_eq_flatMap, requiredOf_eq_flatMap]
  exact h.flatMap_right _

theorem nodesOf_perm {cs ds : List Pattern} (h : cs.Perm ds) : (nodesOf cs).Perm (nodesOf ds) := by
  rw [nodesOf_eq_flatMap, nodesOf_eq_flatMap]
  exact h.flatMap_right _

theorem nodesOf_sublist {cs : List Pattern} {as : List (List Pattern)} (h : cs ∈ as) :
    (nodesOf cs).Sublist (nodesOfEach as) := by
  induction as with
  | nil => cases h
  | cons a as ih =>
    rw [nodesOfEach]
    rcases List.mem_cons.mp h with rfl | h
    · exact List.sublist_append_left _ _
    · exact (ih h).trans (List.sublist_append_right _ _)

theorem requiredOf_sublist_of {cs : List Pattern} (h : ∀ c ∈ cs, c.required.Sublist c.nodes) :
    (requiredOf cs).Sublist (nodesOf cs) := by
  induction cs with
  | nil => exact List.Sublist.refl _
  | cons c cs ih =>
    rw [requiredOf, nodesOf]
    exact (h c List.mem_cons_self).append (ih fun d hd => h d (List.mem_cons_of_mem _ hd))

theorem required_sublist (p : Pattern) : p.required.Sublist p.nodes := by
  induction p using children_induct with | step p ih => ?_
  cases p with
  | sequence cs => exact (requiredOf_sublist_of (ih cs List.mem_cons_self)).append (List.Sublist.refl _)
  | unordered cs id => exact (requiredOf_sublist_of (ih cs List.mem_cons_self)).append (List.Sublist.refl _)
  | _ => exact List.singleton_sublist.mpr (mem_nodes_self _)

theorem requiredOf_sublist (cs : List Pattern) : (requiredOf cs).Sublist (nodesOf cs) :=
  requiredOf_sublist_of fun c _ => required_sublist c

end CommandGrammar.Pattern
