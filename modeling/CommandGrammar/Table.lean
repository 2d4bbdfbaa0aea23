/-
  CommandGrammar.Table — finite maps from names, kept in the order of the names.

  Names are ordered byte by byte. A table is its list of entries, strictly increasing
  in the name, so two tables that hold the same entries are equal.
-/

import CommandGrammar.Bytes

namespace CommandGrammar

structure Table (α : Type) where
  entries : List (Bytes × α) := []
  sorted : entries.Pairwise (fun a b => a.1 < b.1) := by exact List.Pairwise.nil

namespace Table

variable {α : Type}

/-! ## Entries in order -/

/-- Puts `v` at its place, over what `k` held before. -/
def place (k : Bytes) (v : α) : List (Bytes × α) → List (Bytes × α)
  | [] => [(k, v)]
  | e :: rest =>
    if k < e.1 then (k, v) :: e :: rest
    else if k = e.1 then (k, v) :: rest
    else e :: place k v rest

theorem mem_place {k : Bytes} {v : α} {e : Bytes × α} {l : List (Bytes × α)} (h : e ∈ place k v l) :
    e = (k, v) ∨ e ∈ l := by
  induction l with
  | nil => simpa [place] using h
  | cons d rest ih =>
    simp only [place] at h
    split at h
    · simpa using h
    · split at h
      · simp only [List.mem_cons] at h ⊢
        exact h.imp_right Or.inr
      · simp only [List.mem_cons] at h ⊢
        rcases h with h | h
        · exact .inr (.inl h)
        · exact (ih h).imp_right Or.inr

theorem lt_of_not_lt_of_ne {k l : Bytes} (h : ¬ k < l) (hne : k ≠ l) : l < k := by
  rcases Decidable.em (l < k) with h' | h'
  · exact h'
  · exact absurd (List.le_antisymm (List.not_lt.mp h') (List.not_lt.mp h)) hne

theorem place_sorted {k : Bytes} {v : α} {l : List (Bytes × α)} (h : l.Pairwise fun a b => a.1 < b.1) :
    (place k v l).Pairwise fun a b => a.1 < b.1 := by
  induction l with
  | nil => simp [place]
  | cons d rest ih =>
    obtain ⟨hd, hrest⟩ := List.pairwise_cons.mp h
    simp only [place]
    split
    · rename_i hk
      refine List.pairwise_cons.mpr ⟨?_, h⟩
      intro e he
      rcases List.mem_cons.mp he with rfl | he
      · exact hk
      · exact List.lt_trans hk (hd e he)
    · split
      · rename_i hk
        exact List.pairwise_cons.mpr ⟨fun e he => hk ▸ hd e he, hrest⟩
      · rename_i hk hne
        refine List.pairwise_cons.mpr ⟨?_, ih hrest⟩
        intro e he
        rcases mem_place he with rfl | he
        · exact lt_of_not_lt_of_ne hk hne
        · exact hd e he

theorem lookup_place_self (k : Bytes) (v : α) (l : List (Bytes × α)) : (place k v l).lookup k = some v := by
  induction l with
  | nil => simp [place]
  | cons d rest ih =>
    simp only [place]
    split
    · simp
    · split
      · simp
      · rename_i hne
        have hd : (k == d.1) = false := by simpa using hne
        rw [List.lookup_cons, hd]
        exact ih

theorem lookup_place_ne {k j : Bytes} (v : α) (l : List (Bytes × α)) (h : j ≠ k) :
    (place k v l).lookup j = l.lookup j := by
  have hk : (j == k) = false := by simpa using h
  induction l with
  | nil => simp [place, List.lookup_cons, hk]
  | cons d rest ih =>
    simp only [place]
    split
    · rw [List.lookup_cons, hk]
    · split
      · rename_i hd
        rw [List.lookup_cons, List.lookup_cons, ← hd, hk]
      · rw [List.lookup_cons, List.lookup_cons, ih]

/-! ## Operations -/

def empty : Table α := {}

/-- Binds `k` to `v`; a later binding wins. -/
def insert (t : Table α) (k : Bytes) (v : α) : Table α where
  entries := place k v t.entries
  sorted := place_sorted t.sorted

def get? (t : Table α) (k : Bytes) : Option α :=
  t.entries.lookup k

@[ext] theorem ext {t u : Table α} (h : t.entries = u.entries) : t = u := by
  cases t; cases u; cases h; rfl

@[simp] theorem get?_insert_self (t : Table α) (k : Bytes) (v : α) : (t.insert k v).get? k = some v :=
  lookup_place_self k v t.entries

theorem get?_insert_ne (t : Table α) {k j : Bytes} (v : α) (h : j ≠ k) : (t.insert k v).get? j = t.get? j :=
  lookup_place_ne v t.entries h

def contains (t : Table α) (k : Bytes) : Bool :=
  (t.get? k).isSome

def keys (t : Table α) : List Bytes :=
  t.entries.map (·.1)

/-- The bindings of `t` and `u`; those of `u` win. -/
def merge (t u : Table α) : Table α :=
  u.entries.foldl (fun acc e => acc.insert e.1 e.2) t

end Table

end CommandGrammar
