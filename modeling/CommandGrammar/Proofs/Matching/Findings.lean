/-
  CommandGrammar.Proofs.Matching.Findings — findings add up.

  Merging findings is associative and finding nothing is neutral. To bind a name or to
  record a group is to merge what one binding or one record finds, so that whatever is
  found after a fork is found behind what was there before.
-/

import CommandGrammar.Matching.Progress
import CommandGrammar.Proofs.Table

namespace CommandGrammar.Findings

@[ext] theorem ext {f g : Findings} (hparams : f.params = g.params) (hoptionals : f.optionals = g.optionals)
    (hvariants : f.variants = g.variants) (hnamedOptionals : f.namedOptionals = g.namedOptionals)
    (hnamedVariants : f.namedVariants = g.namedVariants) (hnamedOrders : f.namedOrders = g.namedOrders) : f = g := by
  cases f
  cases g
  simp only at hparams hoptionals hvariants hnamedOptionals hnamedVariants hnamedOrders
  rw [hparams, hoptionals, hvariants, hnamedOptionals, hnamedVariants, hnamedOrders]

theorem merge_assoc (f g h : Findings) : (f.merge g).merge h = f.merge (g.merge h) := by
  simp only [merge, Table.merge_assoc, List.append_assoc]

@[simp] theorem merge_nothing (f : Findings) : f.merge {} = f := by
  ext1 <;> simp [merge]

@[simp] theorem nothing_merge (f : Findings) : ({} : Findings).merge f = f := by
  ext1 <;> simp [merge]

/-! ## One finding at a time -/

theorem bind_eq_merge (f : Findings) (name : Bytes) (v : Value) : f.bind name v = f.merge (({} : Findings).bind name v) := by
  ext1 <;> simp [bind, merge, Table.insert_eq_merge f.params]

theorem recordOptional_eq_merge (f : Findings) (id : Option Bytes) (present : Bool) :
    f.recordOptional id present = f.merge (({} : Findings).recordOptional id present) := by
  cases id <;> ext1 <;> simp [recordOptional, merge, Table.insert_eq_merge f.namedOptionals]

theorem recordVariant_eq_merge (f : Findings) (id : Option Bytes) (index : Nat) :
    f.recordVariant id index = f.merge (({} : Findings).recordVariant id index) := by
  cases id <;> ext1 <;> simp [recordVariant, merge, Table.insert_eq_merge f.namedVariants]

theorem recordOrder_eq_merge (f : Findings) (id : Option Bytes) (order : List Nat) :
    f.recordOrder id order = f.merge (({} : Findings).recordOrder id order) := by
  cases id <;> ext1 <;> simp [recordOrder, merge, Table.insert_eq_merge f.namedOrders]

theorem merge_bind (f g : Findings) (name : Bytes) (v : Value) : (f.merge g).bind name v = f.merge (g.bind name v) := by
  rw [bind_eq_merge, merge_assoc, ← bind_eq_merge]

theorem merge_recordOptional (f g : Findings) (id : Option Bytes) (present : Bool) :
    (f.merge g).recordOptional id present = f.merge (g.recordOptional id present) := by
  rw [recordOptional_eq_merge, merge_assoc, ← recordOptional_eq_merge]

theorem merge_recordVariant (f g : Findings) (id : Option Bytes) (index : Nat) :
    (f.merge g).recordVariant id index = f.merge (g.recordVariant id index) := by
  rw [recordVariant_eq_merge, merge_assoc, ← recordVariant_eq_merge]

theorem merge_recordOrder (f g : Findings) (id : Option Bytes) (order : List Nat) :
    (f.merge g).recordOrder id order = f.merge (g.recordOrder id order) := by
  rw [recordOrder_eq_merge, merge_assoc, ← recordOrder_eq_merge]

end CommandGrammar.Findings
