/-
  CommandGrammar.Proofs.Table — tables are told apart by what they hold, and merge like maps.

  Since the entries are sorted, two tables in which every name is bound to the same
  value are equal (`ext_get?`). So merging is associative, the empty table is neutral
  on both sides, and to bind a name is to merge a table of one entry.
-/

import CommandGrammar.Table

namespace CommandGrammar.Table

variable {α : Type}

/-! ## Lookup in sorted entries -/

theorem lookup_eq_none {k : Bytes} {l : List (Bytes × α)} (h : ∀ e ∈ l, k < e.1) : l.lookup k = none := by
  induction l with
  | nil => rfl
  | cons e rest ih =>
    have hne : (k == e.1) = false := by
      rw [beq_eq_false_iff_ne]
      rintro rfl
      exact List.lt_irrefl _ (h e List.mem_cons_self)
    rw [List.lookup_cons, hne]
    exact ih fun d hd => h d (List.mem_cons_of_mem _ hd)

theorem mem_iff_lookup {l : List (Bytes × α)} (hl : l.Pairwise fun a b => a.1 < b.1) (k : Bytes) (v : α) :
    (k, v) ∈ l ↔ l.lookup k = some v := by
  induction l with
  | nil => simp
  | cons e rest ih =>
    obtain ⟨he, hrest⟩ := List.pairwise_cons.mp hl
    rw [List.lookup_cons, List.mem_cons]
    by_cases hk : k = e.1
    · have hfresh : (k, v) ∉ rest := fun hmem => List.lt_irrefl _ (hk ▸ he _ hmem)
      have hbeq : (k == e.1) = true := by simpa using hk
      simp only [hbeq, hfresh, or_false, Option.some.injEq]
      constructor
      · rintro rfl
        rfl
      · rintro rfl
        rw [hk]
    · have hbeq : (k == e.1) = false := by simpa using hk
      have hhead : (k, v) ≠ e := fun h => hk (congrArg Prod.fst h)
      simp only [hbeq, hhead, false_or]
      exact ih hrest

/-- Tables that bind each name alike are equal. -/
theorem ext_get? {t u : Table α} (h : ∀ k, t.get? k = u.get? k) : t = u := by
  have hnodup : ∀ w : Table α, w.entries.Nodup := by
    intro w
    refine w.sorted.imp ?_
    rintro a _ hlt rfl
    exact List.lt_irrefl _ hlt
  have hperm : t.entries.Perm u.entries := by
    rw [List.perm_ext_iff_of_nodup (hnodup t) (hnodup u)]
    rintro ⟨k, v⟩
    have hk : t.entries.lookup k = u.entries.lookup k := h k
    rw [mem_iff_lookup t.sorted, mem_iff_lookup u.sorted, hk]
  refine Table.ext (hperm.eq_of_pairwise ?_ t.sorted u.sorted)
  intro a b _ _ hab hba
  exact absurd (List.lt_trans hab hba) (List.lt_irrefl _)

/-! ## Merging -/

@[simp] theorem get?_empty (k : Bytes) : ({} : Table α).get? k = none := rfl

theorem get?_foldl_insert {l : List (Bytes × α)} (hl : l.Pairwise fun a b => a.1 < b.1) (k : Bytes) :
    ∀ t : Table α, (l.foldl (fun acc e => acc.insert e.1 e.2) t).get? k = (l.lookup k).or (t.get? k) := by
  induction l with
  | nil => exact fun t => rfl
  | cons e rest ih =>
    obtain ⟨he, hrest⟩ := List.pairwise_cons.mp hl
    intro t
    rw [List.foldl_cons, ih hrest, List.lookup_cons]
    by_cases hk : k = e.1
    · subst hk
      rw [lookup_eq_none he, get?_insert_self, beq_self_eq_true]
      rfl
    · have hbeq : (k == e.1) = false := by simpa using hk
      rw [get?_insert_ne _ _ hk, hbeq]

/-- The bindings of the second table win. -/
theorem get?_merge (t u : Table α) (k : Bytes) : (t.merge u).get? k = (u.get? k).or (t.get? k) :=
  get?_foldl_insert u.sorted k t

/-- What is bound stays bound. -/
theorem contains_merge {t : Table α} {k : Bytes} (h : t.contains k = true) (u : Table α) : (t.merge u).contains k = true := by
  rw [contains] at h ⊢
  rw [get?_merge, Option.isSome_or, h, Bool.or_true]

theorem merge_assoc (t u v : Table α) : (t.merge u).merge v = t.merge (u.merge v) := by
  refine ext_get? fun k => ?_
  simp only [get?_merge, Option.or_assoc]

@[simp] theorem merge_empty (t : Table α) : t.merge {} = t := rfl

@[simp] theorem empty_merge (t : Table α) : ({} : Table α).merge t = t := by
  refine ext_get? fun k => ?_
  rw [get?_merge, get?_empty, Option.or_none]

theorem insert_eq_merge (t : Table α) (k : Bytes) (v : α) : t.insert k v = t.merge (({} : Table α).insert k v) := rfl

end CommandGrammar.Table
