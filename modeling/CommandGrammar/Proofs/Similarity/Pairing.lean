/-
  CommandGrammar.Proofs.Similarity.Pairing — which bytes of two texts are paired does not depend on which text is on the left.

  Going through the left text, each byte takes the first free partner. So if two equal
  bytes stand close enough and are not partners, one of them has a partner further to the
  front (`Settled`). This says nothing about sides, and there is only one way to pair the
  bytes so that it holds (`Settled.unique`): of two ways, take the foremost pair that only
  one of them has. Hence the pairing of the texts the other way round is the same one
  (`pairing_swap`). The same bytes are paired on both sides (`paired_perm`).
-/

import CommandGrammar.Similarity
import Mathlib.Data.List.Basic

namespace CommandGrammar.Similarity

/-! ## Marked texts -/

/-- The bytes without their marks. -/
def unmarked (l : List (UInt8 × Bool)) : Bytes :=
  l.map (·.1)

theorem length_unmarked (l : List (UInt8 × Bool)) : (unmarked l).length = l.length :=
  List.length_map _

theorem unmarked_snoc (l : List (UInt8 × Bool)) (c : UInt8) (b : Bool) : unmarked (l ++ [(c, b)]) = unmarked l ++ [c] :=
  List.map_append

/-- The byte at the position is paired. -/
def Taken (l : List (UInt8 × Bool)) (i : Nat) : Prop :=
  ∃ c, l[i]? = some (c, true)

theorem taken_iff {l : List (UInt8 × Bool)} {i : Nat} {c : UInt8} {b : Bool} (h : l[i]? = some (c, b)) :
    Taken l i ↔ b = true := by
  unfold Taken
  rw [h]
  constructor
  · rintro ⟨d, hd⟩
    cases hd
    rfl
  · rintro rfl
    exact ⟨c, rfl⟩

theorem Taken.lt {l : List (UInt8 × Bool)} {i : Nat} (h : Taken l i) : i < l.length := by
  obtain ⟨c, hc⟩ := h
  exact (List.getElem?_eq_some_iff.mp hc).1

/-- A marked text is told by its bytes and by the positions that are paired. -/
theorem eq_of_taken {l l' : List (UInt8 × Bool)} (htext : unmarked l = unmarked l') (h : ∀ i, Taken l i ↔ Taken l' i) :
    l = l' := by
  refine List.ext_getElem? fun i => ?_
  have hi : (l[i]?).map (·.1) = (l'[i]?).map (·.1) := by
    rw [← List.getElem?_map, ← List.getElem?_map]
    exact congrArg (·[i]?) htext
  cases hl : l[i]? with
  | none =>
    rw [hl] at hi
    exact (Option.map_eq_none_iff.mp hi.symm).symm
  | some x =>
    rw [hl] at hi
    obtain ⟨y, hl', hxy⟩ := Option.map_eq_some_iff.mp hi.symm
    have hmark : x.2 = true ↔ y.2 = true := by rw [← taken_iff hl, ← taken_iff hl', h i]
    rw [hl', Prod.ext hxy.symm (Bool.eq_iff_iff.mpr hmark)]

/-! ## Settled pairings -/

/-- Equal bytes stand at the two positions, not further apart than the window. -/
def Close (w : Nat) (lhs rhs : Bytes) (i j : Nat) : Prop :=
  (∃ c, lhs[i]? = some c ∧ rhs[j]? = some c) ∧ i ≤ j + w ∧ j ≤ i + w

theorem Close.swap {w : Nat} {lhs rhs : Bytes} {i j : Nat} (h : Close w lhs rhs i j) : Close w rhs lhs j i := by
  obtain ⟨⟨c, hl, hr⟩, hij, hji⟩ := h
  exact ⟨⟨c, hr, hl⟩, hji, hij⟩

/-- The marks are those of a pairing in which no two bytes would rather be partners of each other. -/
structure Settled (w : Nat) (l r : List (UInt8 × Bool)) (P : Nat → Nat → Prop) : Prop where
  close : ∀ {i j}, P i j → Close w (unmarked l) (unmarked r) i j
  left : ∀ {i j k}, P i j → P i k → j = k
  right : ∀ {i j k}, P i k → P j k → i = j
  /-- Of two bytes that could be partners, one has this partner or one further to the front. -/
  first : ∀ {i j}, Close w (unmarked l) (unmarked r) i j → (∃ k ≤ j, P i k) ∨ ∃ k ≤ i, P k j
  takenLeft : ∀ i, Taken l i ↔ ∃ j, P i j
  takenRight : ∀ j, Taken r j ↔ ∃ i, P i j

namespace Settled

variable {w : Nat} {l r l' r' : List (UInt8 × Bool)} {P Q : Nat → Nat → Prop}

theorem swap (h : Settled w l r P) : Settled w r l fun j i => P i j where
  close hp := (h.close hp).swap
  left hp hq := h.right hp hq
  right hp hq := h.left hp hq
  first hc := (h.first hc.swap).symm
  takenLeft := h.takenRight
  takenRight := h.takenLeft

/-- A pair of the one pairing is one of the other if that is so of all pairs further to the front. -/
theorem imp (h : Settled w l r P) (h' : Settled w l' r' Q) (hl : unmarked l = unmarked l') (hr : unmarked r = unmarked r')
    {i j : Nat} (hfront : ∀ i' j', i' + j' < i + j → Q i' j' → P i' j') (hp : P i j) : Q i j := by
  have hclose := h.close hp
  rw [hl, hr] at hclose
  rcases h'.first hclose with ⟨k, hk, hq⟩ | ⟨k, hk, hq⟩
  · rcases Nat.lt_or_eq_of_le hk with hlt | rfl
    · have := h.left hp (hfront i k (by omega) hq)
      omega
    · exact hq
  · rcases Nat.lt_or_eq_of_le hk with hlt | rfl
    · have := h.right hp (hfront k j (by omega) hq)
      omega
    · exact hq

/-- There is one settled pairing of two texts. -/
theorem unique (h : Settled w l r P) (h' : Settled w l' r' Q) (hl : unmarked l = unmarked l')
    (hr : unmarked r = unmarked r') (i j : Nat) : P i j ↔ Q i j := by
  induction hn : i + j using Nat.strongRecOn generalizing i j with
  | ind n ih =>
    subst hn
    constructor
    · exact h.imp h' hl hr fun i' j' hlt => (ih _ hlt i' j' rfl).mpr
    · exact h'.imp h hl.symm hr.symm fun i' j' hlt => (ih _ hlt i' j' rfl).mp

theorem marks_eq (h : Settled w l r P) (h' : Settled w l' r' Q) (hl : unmarked l = unmarked l')
    (hr : unmarked r = unmarked r') : l = l' ∧ r = r' := by
  have hpq := h.unique h' hl hr
  constructor
  · refine eq_of_taken hl fun i => ?_
    rw [h.takenLeft, h'.takenLeft]
    exact exists_congr fun j => hpq i j
  · refine eq_of_taken hr fun j => ?_
    rw [h.takenRight, h'.takenRight]
    exact exists_congr fun i => hpq i j

end Settled

/-! ## One byte -/

theorem partner?_eq_none {c : UInt8} {lo hi : Nat} {r : List (UInt8 × Bool)} {j : Nat} (h : partner? c lo hi j r = none) :
    ∀ k, lo ≤ j + k → j + k < hi → r[k]? ≠ some (c, false) := by
  induction r generalizing j with
  | nil => simp
  | cons x r ih =>
    obtain ⟨d, taken⟩ := x
    unfold partner? at h
    split at h
    · cases h
    · rename_i hfree
      have hrest := ih (Option.map_eq_none_iff.mp h)
      intro k hlo hhi
      cases k with
      | zero =>
        intro hk
        cases hk
        exact hfree ⟨hlo, hhi, rfl, rfl⟩
      | succ k => exact hrest k (by omega) (by omega)

/-- The partner of a byte is the first free one. -/
theorem partner?_eq_some {c : UInt8} {lo hi : Nat} {r r' : List (UInt8 × Bool)} {j : Nat}
    (h : partner? c lo hi j r = some r') :
    ∃ k, lo ≤ j + k ∧ j + k < hi ∧ r[k]? = some (c, false) ∧ r' = r.set k (c, true) ∧
      ∀ k' < k, lo ≤ j + k' → r[k']? ≠ some (c, false) := by
  induction r generalizing j r' with
  | nil => cases h
  | cons x r ih =>
    obtain ⟨d, taken⟩ := x
    unfold partner? at h
    split at h
    · rename_i hfree
      obtain ⟨hlo, hhi, rfl, rfl⟩ := hfree
      cases h
      exact ⟨0, hlo, hhi, rfl, rfl, fun k' hk' => absurd hk' (Nat.not_lt_zero k')⟩
    · rename_i hfree
      obtain ⟨rest, hrest, rfl⟩ := Option.map_eq_some_iff.mp h
      obtain ⟨k, hlo, hhi, hk, rfl, hfirst⟩ := ih hrest
      refine ⟨k + 1, by omega, by omega, hk, rfl, fun k' hk' hlo' => ?_⟩
      cases k' with
      | zero =>
        intro hd
        cases hd
        exact hfree ⟨hlo', by omega, rfl, rfl⟩
      | succ k' => exact hfirst k' (by omega) (by omega)

theorem unmarked_set {r : List (UInt8 × Bool)} {k : Nat} {c : UInt8} {b : Bool} (h : r[k]? = some (c, b)) :
    unmarked (r.set k (c, true)) = unmarked r := by
  obtain ⟨hk, hget⟩ := List.getElem?_eq_some_iff.mp h
  have hlt : k < (unmarked r).length := by rwa [length_unmarked]
  have hbyte : (unmarked r)[k] = c := by simp [unmarked, hget]
  calc unmarked (r.set k (c, true))
      = (unmarked r).set k c := List.map_set
    _ = (unmarked r).set k (unmarked r)[k] := by rw [hbyte]
    _ = unmarked r := List.set_getElem_self hlt

theorem taken_set {r : List (UInt8 × Bool)} {k : Nat} (hk : k < r.length) (c : UInt8) (j : Nat) :
    Taken (r.set k (c, true)) j ↔ Taken r j ∨ j = k := by
  unfold Taken
  rw [List.getElem?_set]
  split
  · rename_i heq
    subst heq
    simp [hk]
  · rename_i hne
    simp [Ne.symm hne]

theorem getElem?_snoc_eq_some {α : Type} {l : List α} {x y : α} {i : Nat} :
    (l ++ [x])[i]? = some y ↔ l[i]? = some y ∨ (i = l.length ∧ x = y) := by
  rcases Nat.lt_trichotomy i l.length with hlt | rfl | hgt
  · simp [List.getElem?_append_left hlt, Nat.ne_of_lt hlt]
  · simp
  · have hnone : l[i]? = none := List.getElem?_eq_none (Nat.le_of_lt hgt)
    have hnone' : (l ++ [x])[i]? = none := List.getElem?_eq_none (by simpa using Nat.succ_le_of_lt hgt)
    simp [hnone, hnone', Nat.ne_of_gt hgt]

theorem taken_snoc {l : List (UInt8 × Bool)} {c : UInt8} {b : Bool} {i : Nat} :
    Taken (l ++ [(c, b)]) i ↔ Taken l i ∨ (i = l.length ∧ b = true) := by
  simp [Taken, getElem?_snoc_eq_some, exists_or]

theorem close_snoc {w : Nat} {lhs rhs : Bytes} {c : UInt8} {i j : Nat} :
    Close w (lhs ++ [c]) rhs i j ↔
      Close w lhs rhs i j ∨ (i = lhs.length ∧ rhs[j]? = some c ∧ i ≤ j + w ∧ j ≤ i + w) := by
  have hequal : (∃ d, (lhs ++ [c])[i]? = some d ∧ rhs[j]? = some d) ↔
      (∃ d, lhs[i]? = some d ∧ rhs[j]? = some d) ∨ (i = lhs.length ∧ rhs[j]? = some c) := by
    simp [getElem?_snoc_eq_some, or_and_right, exists_or, and_assoc]
  rw [Close, Close, hequal, or_and_right, and_assoc]

/-- A byte that is not free is paired. -/
theorem taken_of_not_free {r : List (UInt8 × Bool)} {c : UInt8} {j : Nat} (hj : (unmarked r)[j]? = some c)
    (hfree : r[j]? ≠ some (c, false)) : Taken r j := by
  unfold unmarked at hj
  rw [List.getElem?_map] at hj
  obtain ⟨⟨d, b⟩, hr, rfl⟩ := Option.map_eq_some_iff.mp hj
  cases b with
  | false => exact absurd hr hfree
  | true => exact ⟨d, hr⟩

namespace Settled

variable {w : Nat} {l r r' : List (UInt8 × Bool)} {P : Nat → Nat → Prop} {c : UInt8}

/-- The partner of a byte that is paired comes before all bytes that are still to be paired. -/
theorem before_end (h : Settled w l r P) {j : Nat} (hj : Taken r j) : ∃ i < l.length, P i j := by
  obtain ⟨i, hp⟩ := (h.takenRight j).mp hj
  exact ⟨i, ((h.takenLeft i).mpr ⟨j, hp⟩).lt, hp⟩

theorem not_at_end (h : Settled w l r P) (j : Nat) : ¬ P l.length j := by
  intro hp
  have hlt := ((h.takenLeft l.length).mpr ⟨j, hp⟩).lt
  omega

/-- A byte stays alone where no equal byte is free. -/
theorem skip (h : Settled w l r P) (hnone : partner? c (l.length - w) (l.length + w + 1) 0 r = none) :
    Settled w (l ++ [(c, false)]) r P where
  close hp := by
    rw [unmarked_snoc, close_snoc]
    exact .inl (h.close hp)
  left := h.left
  right := h.right
  first {i j} hc := by
    rw [unmarked_snoc, close_snoc, length_unmarked] at hc
    rcases hc with hc | ⟨rfl, hj, hij, hji⟩
    · exact h.first hc
    · have hfree := partner?_eq_none hnone j (by omega) (by omega)
      obtain ⟨i, hi, hp⟩ := h.before_end (taken_of_not_free hj hfree)
      exact .inr ⟨i, Nat.le_of_lt hi, hp⟩
  takenLeft i := by
    rw [taken_snoc, ← h.takenLeft]
    simp
  takenRight := h.takenRight

/-- A byte is paired with the first equal byte that is free. -/
theorem take (h : Settled w l r P) (hsome : partner? c (l.length - w) (l.length + w + 1) 0 r = some r') :
    ∃ k, Settled w (l ++ [(c, true)]) r' fun i j => P i j ∨ (i = l.length ∧ j = k) := by
  obtain ⟨k, hlo, hhi, hk, rfl, hfirst⟩ := partner?_eq_some hsome
  have hlt : k < r.length := (List.getElem?_eq_some_iff.mp hk).1
  have hfree : ∀ i, ¬ P i k := by
    intro i hp
    have htaken := (taken_iff hk).mp ((h.takenRight k).mpr ⟨i, hp⟩)
    cases htaken
  refine ⟨k, {
    close := ?close
    left := ?left
    right := ?right
    first := ?first
    takenLeft := ?takenLeft
    takenRight := ?takenRight }⟩
  case close =>
    rintro i j (hp | ⟨rfl, rfl⟩)
    · rw [unmarked_snoc, close_snoc, unmarked_set hk]
      exact .inl (h.close hp)
    · rw [unmarked_snoc, close_snoc, unmarked_set hk, length_unmarked]
      exact .inr ⟨rfl, by simp [unmarked, hk], by omega, by omega⟩
  case left =>
    rintro i j j' (hp | ⟨rfl, rfl⟩) (hp' | ⟨hi, rfl⟩)
    · exact h.left hp hp'
    · subst hi
      exact absurd hp (h.not_at_end j)
    · exact absurd hp' (h.not_at_end j')
    · rfl
  case right =>
    rintro i i' j (hp | ⟨rfl, rfl⟩) (hp' | ⟨rfl, hj⟩)
    · exact h.right hp hp'
    · subst hj
      exact absurd hp (hfree i)
    · exact absurd hp' (hfree i')
    · rfl
  case first =>
    intro i j hc
    rw [unmarked_snoc, close_snoc, unmarked_set hk, length_unmarked] at hc
    rcases hc with hc | ⟨rfl, hj, hij, hji⟩
    · rcases h.first hc with ⟨k', hk', hp⟩ | ⟨i', hi', hp⟩
      · exact .inl ⟨k', hk', .inl hp⟩
      · exact .inr ⟨i', hi', .inl hp⟩
    · by_cases hj' : r[j]? = some (c, false)
      · have hkj : k ≤ j := by
          by_contra hlt
          exact hfirst j (by omega) (by omega) hj'
        exact .inl ⟨k, hkj, .inr ⟨rfl, rfl⟩⟩
      · obtain ⟨i, hi, hp⟩ := h.before_end (taken_of_not_free hj hj')
        exact .inr ⟨i, Nat.le_of_lt hi, .inl hp⟩
  case takenLeft =>
    intro i
    rw [taken_snoc, h.takenLeft]
    simp [exists_or]
  case takenRight =>
    intro j
    rw [taken_set hlt, h.takenRight]
    simp [exists_or]

end Settled

/-! ## Whole texts -/

section

variable {w i : Nat} {c : UInt8} {lhs : Bytes} {r r' : List (UInt8 × Bool)}

theorem pairFrom_none (h : partner? c (i - w) (i + w + 1) 0 r = none) :
    pairFrom w i (c :: lhs) r = ((c, false) :: (pairFrom w (i + 1) lhs r).1, (pairFrom w (i + 1) lhs r).2) := by
  rw [pairFrom, h]

theorem pairFrom_some (h : partner? c (i - w) (i + w + 1) 0 r = some r') :
    pairFrom w i (c :: lhs) r = ((c, true) :: (pairFrom w (i + 1) lhs r').1, (pairFrom w (i + 1) lhs r').2) := by
  rw [pairFrom, h]

end

/-- Pairing the bytes that follow keeps the pairing settled. -/
theorem pairFrom_settled {w : Nat} (lhs : Bytes) :
    ∀ {l r : List (UInt8 × Bool)} {P : Nat → Nat → Prop}, Settled w l r P →
      ∃ Q, Settled w (l ++ (pairFrom w l.length lhs r).1) (pairFrom w l.length lhs r).2 Q := by
  induction lhs with
  | nil =>
    intro l r P h
    exact ⟨P, by simpa [pairFrom] using h⟩
  | cons c lhs ih =>
    intro l r P h
    have hlen : ∀ b, (l ++ [(c, b)]).length = l.length + 1 := fun b => List.length_append
    cases hpartner : partner? c (l.length - w) (l.length + w + 1) 0 r with
    | none =>
      obtain ⟨Q, hQ⟩ := ih (h.skip hpartner)
      rw [hlen, List.append_assoc] at hQ
      rw [pairFrom_none hpartner]
      exact ⟨Q, hQ⟩
    | some r' =>
      obtain ⟨k, htake⟩ := h.take hpartner
      obtain ⟨Q, hQ⟩ := ih htake
      rw [hlen, List.append_assoc] at hQ
      rw [pairFrom_some hpartner]
      exact ⟨Q, hQ⟩

theorem unmarked_pairFrom (w : Nat) (lhs : Bytes) : ∀ (i : Nat) (r : List (UInt8 × Bool)),
    unmarked (pairFrom w i lhs r).1 = lhs ∧ unmarked (pairFrom w i lhs r).2 = unmarked r := by
  induction lhs with
  | nil => exact fun i r => ⟨rfl, rfl⟩
  | cons c lhs ih =>
    intro i r
    cases hpartner : partner? c (i - w) (i + w + 1) 0 r with
    | none =>
      obtain ⟨hl, hr⟩ := ih (i + 1) r
      rw [pairFrom_none hpartner]
      exact ⟨congrArg (c :: ·) hl, hr⟩
    | some r' =>
      obtain ⟨k, _, _, hk, rfl, _⟩ := partner?_eq_some hpartner
      obtain ⟨hl, hr⟩ := ih (i + 1) (r.set k (c, true))
      rw [pairFrom_some hpartner]
      exact ⟨congrArg (c :: ·) hl, hr.trans (unmarked_set hk)⟩

theorem unmarked_free (text : Bytes) : unmarked (text.map (·, false)) = text := by
  rw [unmarked, List.map_map]
  exact List.map_id text

theorem not_taken_free (text : Bytes) (i : Nat) : ¬ Taken (text.map (·, false)) i := by
  rintro ⟨c, hc⟩
  simp at hc

theorem unmarked_pairing (lhs rhs : Bytes) :
    unmarked (pairing lhs rhs).1 = lhs ∧ unmarked (pairing lhs rhs).2 = rhs := by
  obtain ⟨hl, hr⟩ := unmarked_pairFrom (window lhs rhs) lhs 0 (rhs.map (·, false))
  exact ⟨hl, hr.trans (unmarked_free rhs)⟩

/-- The pairing of two texts is settled. -/
theorem pairing_settled (lhs rhs : Bytes) :
    ∃ P, Settled (window lhs rhs) (pairing lhs rhs).1 (pairing lhs rhs).2 P := by
  have hstart : Settled (window lhs rhs) [] (rhs.map (·, false)) fun _ _ => False := by
    refine ⟨False.elim, fun hp => hp.elim, fun hp => hp.elim, ?_, ?_, ?_⟩
    · rintro i j ⟨⟨c, hc, _⟩, _⟩
      cases hc
    · simp [Taken]
    · simp [not_taken_free]
  exact pairFrom_settled lhs hstart

theorem window_comm (lhs rhs : Bytes) : window rhs lhs = window lhs rhs := by
  unfold window
  rw [Nat.max_comm]

/-- The pairing of the texts the other way round marks the same bytes. -/
theorem pairing_swap (lhs rhs : Bytes) : pairing rhs lhs = (pairing lhs rhs).swap := by
  obtain ⟨P, hP⟩ := pairing_settled lhs rhs
  obtain ⟨Q, hQ⟩ := pairing_settled rhs lhs
  obtain ⟨hl, hr⟩ := unmarked_pairing lhs rhs
  obtain ⟨hl', hr'⟩ := unmarked_pairing rhs lhs
  rw [window_comm] at hQ
  obtain ⟨hleft, hright⟩ := hQ.marks_eq hP.swap (hl'.trans hr.symm) (hr'.trans hl.symm)
  exact Prod.ext hleft hright

/-! ## Paired bytes -/

theorem paired_append (l r : List (UInt8 × Bool)) : paired (l ++ r) = paired l ++ paired r := by
  simp [paired]

/-- Taking a byte adds it to those that are paired. -/
theorem paired_set {r : List (UInt8 × Bool)} {k : Nat} {c : UInt8} (h : r[k]? = some (c, false)) :
    (c :: paired r).Perm (paired (r.set k (c, true))) := by
  obtain ⟨hk, hget⟩ := List.getElem?_eq_some_iff.mp h
  have hsplit : r = r.take k ++ (c, false) :: r.drop (k + 1) := by
    rw [← hget, List.getElem_cons_drop, List.take_append_drop]
  have hpaired : paired r = paired (r.take k) ++ paired (r.drop (k + 1)) := by
    conv_lhs => rw [hsplit, paired_append]
    rfl
  rw [List.set_eq_take_append_cons_drop, if_pos hk, hpaired, paired_append]
  exact List.perm_middle.symm

theorem paired_pairFrom_perm (w : Nat) (lhs : Bytes) : ∀ (i : Nat) (r : List (UInt8 × Bool)),
    (paired (pairFrom w i lhs r).1 ++ paired r).Perm (paired (pairFrom w i lhs r).2) := by
  induction lhs with
  | nil => exact fun i r => List.Perm.refl _
  | cons c lhs ih =>
    intro i r
    cases hpartner : partner? c (i - w) (i + w + 1) 0 r with
    | none =>
      rw [pairFrom_none hpartner]
      exact ih (i + 1) r
    | some r' =>
      obtain ⟨k, _, _, hk, rfl, _⟩ := partner?_eq_some hpartner
      rw [pairFrom_some hpartner]
      have hmove : (paired ((c, true) :: (pairFrom w (i + 1) lhs (r.set k (c, true))).1) ++ paired r).Perm
          (paired (pairFrom w (i + 1) lhs (r.set k (c, true))).1 ++ (c :: paired r)) := List.perm_middle.symm
      exact hmove.trans (((paired_set hk).append_left _).trans (ih (i + 1) _))

/-- The same bytes are paired on both sides, each as often. -/
theorem paired_perm (lhs rhs : Bytes) : (paired (pairing lhs rhs).1).Perm (paired (pairing lhs rhs).2) := by
  have hfree : paired (rhs.map (·, false)) = [] := by simp [paired]
  have hperm := paired_pairFrom_perm (window lhs rhs) lhs 0 (rhs.map (·, false))
  rw [hfree, List.append_nil] at hperm
  exact hperm

end CommandGrammar.Similarity
