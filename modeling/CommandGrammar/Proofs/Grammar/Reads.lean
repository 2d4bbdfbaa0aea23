/-
  CommandGrammar.Proofs.Grammar.Reads — what a level holds of the tokens read into it.

  A level is filled by items and divided by dividers, nothing else (`Reads`). So it holds
  complete alternatives and the items behind the last divider, each of them derived from
  its part of the tokens (`Reads.parts`), and closing it makes an item of the brackets
  around it (`item_group`). An identifier amends the latest item without moving any
  token (`Reads.amend`).
-/

import CommandGrammar.Proofs.Grammar.Groups

namespace CommandGrammar.Grammar

variable (r : Reading)

/-! ## Levels -/

/-- The level holds what the terminals describe: items, and dividers behind some of them. -/
inductive Reads : Level → List Terminal → Prop
  | start : Reads {} []
  | item {l : Level} {ts us : List Terminal} {p : Pattern} : Reads l ts → l.full = false →
      Item r.caseSensitive us p → ItemAdmissible r.knownType p → Reads (l.add p) (ts ++ us)
  | divide {l : Level} {ts : List Terminal} (t : Token) : Reads l ts → l.children ≠ [] →
      Reads (l.divide t) (ts ++ [.mark .divider])

theorem Level.alternatives_add (l : Level) (p : Pattern) :
    (l.add p).alternatives = l.variants.reverse.map (·.children) ++ [l.children.reverse ++ [p]] := by
  rw [Level.alternatives_eq]
  simp [Level.add]

theorem Level.alternatives_divide (l : Level) (t : Token) : (l.divide t).alternatives = l.alternatives ++ [[]] := by
  rw [Level.alternatives_eq, Level.alternatives_eq]
  simp [Level.divide]

/-- A level is full when the last child of its current variant ends in a tail. -/
theorem Level.not_full_iff (l : Level) : l.full = false ↔ ∀ c ∈ l.children.head?, c.endsInTail = false := by
  unfold Level.full
  cases l.children <;> simp

variable {r}

/-- Behind the latest divider, items or nothing; in front of it, alternatives or nothing. -/
theorem Reads.parts {l : Level} {ts : List Terminal} (h : Reads r l ts) :
    ∃ us vs, ts = us ++ vs ∧
      ((l.variants = [] ∧ us = []) ∨
        ∃ ws, us = ws ++ [.mark .divider] ∧
          Alternatives r.caseSensitive ws (l.variants.reverse.map (·.children))) ∧
      ((l.children = [] ∧ vs = []) ∨ Items r.caseSensitive vs l.children.reverse) := by
  induction h with
  | start => exact ⟨[], [], rfl, .inl ⟨rfl, rfl⟩, .inl ⟨rfl, rfl⟩⟩
  | @item l ts ws p _ _ hi _ ih =>
    obtain ⟨us, vs, rfl, hv, hc⟩ := ih
    refine ⟨us, vs ++ ws, by simp, hv, .inr ?_⟩
    rcases hc with ⟨hc, rfl⟩ | hc
    · simpa [Level.add, hc] using Items.one hi
    · simpa [Level.add] using Items.more hc hi
  | @divide l ts t _ hne ih =>
    obtain ⟨us, vs, rfl, hv, hc⟩ := ih
    have hi : Items r.caseSensitive vs l.children.reverse := by
      rcases hc with ⟨hc, _⟩ | hc
      · exact absurd hc hne
      · exact hc
    refine ⟨us ++ vs ++ [.mark .divider], [], by simp, .inr ⟨us ++ vs, rfl, ?_⟩, .inl ⟨rfl, rfl⟩⟩
    rcases hv with ⟨hv, rfl⟩ | ⟨ws, rfl, ha⟩
    · simpa [Level.divide, hv] using Alternatives.one hi
    · simpa [Level.divide] using Alternatives.more ha hi

theorem Reads.derives {l : Level} {ts : List Terminal} (h : Reads r l ts) (hc : l.children ≠ []) :
    Alternatives r.caseSensitive ts l.alternatives := by
  obtain ⟨us, vs, rfl, hv, hi⟩ := h.parts
  rw [l.alternatives_eq]
  rcases hi with ⟨hi, _⟩ | hi
  · exact absurd hi hc
  rcases hv with ⟨hv, rfl⟩ | ⟨ws, rfl, ha⟩
  · simpa [hv] using Alternatives.one hi
  · simpa using Alternatives.more ha hi

/-- A level that has not been touched has no tokens. -/
theorem Reads.eq_nil {l : Level} {ts : List Terminal} (h : Reads r l ts) (hc : l.children = [])
    (hv : l.variants = []) : ts = [] := by
  cases h with
  | start => rfl
  | item => simp [Level.add] at hc
  | divide => simp [Level.divide] at hv

/-- No alternative in front of a divider is empty. -/
theorem Reads.filled {l : Level} {ts : List Terminal} (h : Reads r l ts) : ∀ v ∈ l.variants, v.children ≠ [] := by
  induction h with
  | start => exact List.forall_mem_nil _
  | item _ _ _ _ ih => exact ih
  | divide t _ hne ih => exact List.forall_mem_cons.mpr ⟨by simpa using hne, ih⟩

theorem Reads.admissible {l : Level} {ts : List Terminal} (h : Reads r l ts) :
    AlternativesAdmissible r.knownType l.alternatives := by
  induction h with
  | start => exact alternativesAdmissible_nil
  | @item l ts us p _ hf _ hp ih =>
    rw [l.alternatives_eq, alternativesAdmissible_append] at ih
    rw [l.alternatives_add, alternativesAdmissible_append, alternativesAdmissible_snoc]
    refine ⟨ih.1, ih.2, fun c hc => ?_, hp⟩
    -- the latest child leaves room, and those before it were not the last even then
    have hinit := ih.2.tailsLast _ (List.mem_singleton.mpr rfl)
    have hlast := l.not_full_iff.mp hf
    cases hch : l.children with
    | nil => simp [hch] at hc
    | cons latest rest =>
      simp only [hch, List.reverse_cons, List.dropLast_concat] at hc hinit
      rcases List.mem_append.mp hc with hc | hc
      · exact hinit c hc
      · rw [List.mem_singleton.mp hc]
        exact hlast latest (by simp [hch])
  | @divide l ts t _ _ ih =>
    rw [l.alternatives_divide, alternativesAdmissible_append]
    exact ⟨ih, alternativesAdmissible_nil⟩

/-- The latest child may be replaced by what its tokens and the next ones describe together. -/
theorem Reads.amend {l : Level} {ts vs : List Terminal} {p p' : Pattern} {rest : List Pattern}
    (h : Reads r l ts) (hc : l.children = p :: rest)
    (hi : ∀ us, Item r.caseSensitive us p → Item r.caseSensitive (us ++ vs) p')
    (hp : ItemAdmissible r.knownType p → ItemAdmissible r.knownType p') :
    Reads r { l with children := p' :: rest } (ts ++ vs) := by
  cases h with
  | start => cases hc
  | @item l₀ ts us q hl hf hq ha =>
    injection hc with hq' hrest
    subst hq' hrest
    rw [List.append_assoc]
    exact Reads.item hl hf (hi us hq) (hp ha)
  | divide => cases hc

theorem Reads.latest_item {l : Level} {ts : List Terminal} {p : Pattern} {rest : List Pattern} (h : Reads r l ts)
    (hc : l.children = p :: rest) : ∃ us, Item r.caseSensitive us p := by
  cases h with
  | start => cases hc
  | item _ _ hi _ =>
    injection hc with hq _
    subst hq
    exact ⟨_, hi⟩
  | divide => cases hc

/-! ## Names of a level -/

def Level.names (l : Level) : List Bytes :=
  Pattern.namesOf l.alternatives.flatten

theorem Level.names_add (l : Level) (p : Pattern) : (l.add p).names = l.names ++ Pattern.namesOf [p] := by
  rw [Level.names, Level.names, l.alternatives_add, l.alternatives_eq]
  simp [Pattern.namesOf_append]

theorem Level.names_divide (l : Level) (t : Token) : (l.divide t).names = l.names := by
  rw [Level.names, Level.names, l.alternatives_divide]
  simp

theorem Level.names_amend {l : Level} {p p' : Pattern} {rest : List Pattern} {ns : List Bytes}
    (hc : l.children = p :: rest) (hn : Pattern.namesOf [p'] = Pattern.namesOf [p] ++ ns) :
    ({ l with children := p' :: rest } : Level).names = l.names ++ ns := by
  rw [Level.names, Level.names, Level.alternatives_eq, Level.alternatives_eq]
  simp [hc, Pattern.namesOf_append, hn]

theorem names_group {b : Bracket} {l : Level} (hb : b = .unordered → l.variants = []) :
    Pattern.namesOf [group b l] = l.names := by
  have hne : l.alternatives ≠ [] := by rw [l.alternatives_eq]; simp
  cases b with
  | sequence =>
    rw [group_sequence_eq, namesOf_parenthesized _ _ (by simp) hne]
    simp [Level.names]
  | optional =>
    rw [group_optional_eq, namesOf_bracketed _ _ hne]
    simp [Level.names]
  | unordered =>
    rw [group_unordered_eq (hb rfl), namesOf_braced, Level.names, Level.alternatives_of_undivided (hb rfl)]
    simp

/-- A complete bracket is an item. -/
theorem item_group {b : Bracket} {l : Level} {ts : List Terminal} (h : Reads r l ts) (hc : l.children ≠ [])
    (hb : b = .unordered → l.variants = []) :
    Item r.caseSensitive (.mark (.opening b) :: ts ++ [.mark (.closing b)]) (group b l) := by
  have ha := h.derives hc
  cases b with
  | sequence =>
    rw [group_sequence_eq]
    exact Item.parenthesized ha .absent (by simp)
  | optional =>
    rw [group_optional_eq]
    exact Item.bracketed ha .absent
  | unordered =>
    rw [group_unordered_eq (hb rfl)]
    rw [Level.alternatives_of_undivided (hb rfl)] at ha
    exact Item.braced ha.single .absent

theorem admissible_group {b : Bracket} {l : Level} {ts : List Terminal} (h : Reads r l ts)
    (hb : b = .unordered → l.variants = []) : ItemAdmissible r.knownType (group b l) := by
  have ha := h.admissible
  have hne : l.alternatives ≠ [] := by rw [l.alternatives_eq]; simp
  cases b with
  | sequence =>
    rw [group_sequence_eq]
    exact (itemAdmissible_parenthesized hne).mpr ha
  | optional =>
    rw [group_optional_eq]
    exact (itemAdmissible_bracketed hne).mpr ha
  | unordered =>
    rw [group_unordered_eq (hb rfl)]
    rw [Level.alternatives_of_undivided (hb rfl)] at ha
    exact itemAdmissible_unordered.mpr ha

end CommandGrammar.Grammar
