/-
  CommandGrammar.Proofs.Matching.Entries — findings by name.

  Values and records are kept in a table for each kind. Here they are one map, from slots
  to entries: what is merged is looked up in the later findings first (`finding?_merge`).
-/

import CommandGrammar.Matching.Lookup
import CommandGrammar.Proofs.Matching.Findings
import CommandGrammar.Proofs.Pattern.Required

namespace CommandGrammar

open Pattern (Slot)

theorem Table.get?_insert_nothing {α : Type} (k j : Bytes) (v : α) :
    (({} : Table α).insert k v).get? j = if j = k then some v else none := by
  split
  · rename_i h
    rw [h, get?_insert_self]
  · rename_i h
    rw [get?_insert_ne _ _ h, get?_empty]

/-- What is found under a name. -/
inductive Entry where
  | value (v : Value)
  | record (r : NamedRecord)

namespace Findings

def finding? (f : Findings) : Slot × Bytes → Option Entry
  | (.parameter, name) => (f.params.get? name).map .value
  | (.optional, id) => (f.namedOptionals.get? id).map fun present => .record (.optional present)
  | (.variants, id) => (f.namedVariants.get? id).map fun index => .record (.variant index)
  | (.unordered, id) => (f.namedOrders.get? id).map fun order => .record (.order order)

@[simp] theorem finding?_nothing (s : Slot × Bytes) : ({} : Findings).finding? s = none := by
  obtain ⟨_ | _ | _ | _, name⟩ := s <;> rfl

theorem finding?_merge (f g : Findings) (s : Slot × Bytes) : (f.merge g).finding? s = (g.finding? s).or (f.finding? s) := by
  obtain ⟨_ | _ | _ | _, name⟩ := s <;> simp only [finding?, merge, Table.get?_merge, Option.map_or]

/-! ## Lookups -/

theorem orError_eq_ok {α : Type} {e : LookupError} {o : Option α} {a : α} : orError e o = .ok a ↔ o = some a := by
  cases o <;> simp [orError]

variable {f : Findings} {name : Bytes}

theorem value_eq_ok {v : Value} : f.value name = .ok v ↔ f.finding? (.parameter, name) = some (.value v) := by
  simp [value, finding?, orError_eq_ok]

theorem optional_eq_ok {present : Bool} :
    f.optional name = .ok present ↔ f.finding? (.optional, name) = some (.record (.optional present)) := by
  simp [optional, finding?, orError_eq_ok]

theorem variant_eq_ok {index : Nat} :
    f.variant name = .ok index ↔ f.finding? (.variants, name) = some (.record (.variant index)) := by
  simp [variant, finding?, orError_eq_ok]

theorem order_eq_ok {indexes : List Nat} :
    f.order name = .ok indexes ↔ f.finding? (.unordered, name) = some (.record (.order indexes)) := by
  simp [order, finding?, orError_eq_ok]

/-! ## One finding -/

/-- There is one entry. -/
def Sole (f : Findings) (s : Slot × Bytes) (e : Entry) : Prop :=
  ∀ s', f.finding? s' = if s' = s then some e else none

theorem bind_sole (name : Bytes) (v : Value) : (({} : Findings).bind name v).Sole (.parameter, name) (.value v) := by
  rintro ⟨_ | _ | _ | _, name'⟩ <;> simp [finding?, bind, Table.get?_insert_nothing]

theorem recordOptional_sole (id : Bytes) (present : Bool) :
    (({} : Findings).recordOptional (some id) present).Sole (.optional, id) (.record (.optional present)) := by
  rintro ⟨_ | _ | _ | _, name'⟩ <;> simp [finding?, recordOptional, Table.get?_insert_nothing]

theorem recordVariant_sole (id : Bytes) (index : Nat) :
    (({} : Findings).recordVariant (some id) index).Sole (.variants, id) (.record (.variant index)) := by
  rintro ⟨_ | _ | _ | _, name'⟩ <;> simp [finding?, recordVariant, Table.get?_insert_nothing]

theorem recordOrder_sole (id : Bytes) (order : List Nat) :
    (({} : Findings).recordOrder (some id) order).Sole (.unordered, id) (.record (.order order)) := by
  rintro ⟨_ | _ | _ | _, name'⟩ <;> simp [finding?, recordOrder, Table.get?_insert_nothing]

end Findings

end CommandGrammar
