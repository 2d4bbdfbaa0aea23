/-
  CommandGrammar.Proofs.Similarity.Measure — similarity is symmetric, and 1 for equal texts alone.

  The pairing of two texts does not tell them apart, and the measure only adds up what it
  reads off both sides (`measure_symmetric`). No more bytes are paired than either text
  has, so that each of the three parts of the measure is at most 1. All three are 1 only
  if every byte is paired and none stands in another order, and then the texts are equal;
  two equal texts pair each byte with itself, since all bytes before it are taken
  (`measure_le_one`, `measure_eq_one_iff`).
-/

import CommandGrammar.Proofs.Similarity
import CommandGrammar.Proofs.Similarity.Pairing
import Mathlib.Algebra.Order.Field.Basic

namespace CommandGrammar.Similarity

/-! ## Bytes that stand in another order -/

theorem halfTranspositions_cons (a b : UInt8) (l r : Bytes) :
    halfTranspositions (a :: l) (b :: r) = halfTranspositions l r + if a = b then 0 else 1 := by
  unfold halfTranspositions
  by_cases h : a = b <;> simp [h]

theorem halfTranspositions_comm (l r : Bytes) : halfTranspositions r l = halfTranspositions l r := by
  induction l generalizing r with
  | nil => cases r <;> rfl
  | cons a l ih =>
    cases r with
    | nil => rfl
    | cons b r =>
      rw [halfTranspositions_cons, halfTranspositions_cons, ih]
      simp [eq_comm]

theorem halfTranspositions_self (l : Bytes) : halfTranspositions l l = 0 := by
  induction l with
  | nil => rfl
  | cons a l ih => simp [halfTranspositions_cons, ih]

theorem eq_of_halfTranspositions_eq_zero {l r : Bytes} (hlen : l.length = r.length) (h : halfTranspositions l r = 0) :
    l = r := by
  induction l generalizing r with
  | nil => exact (List.length_eq_zero_iff.mp hlen.symm).symm
  | cons a l ih =>
    cases r with
    | nil => cases hlen
    | cons b r =>
      rw [halfTranspositions_cons] at h
      by_cases hab : a = b
      · rw [hab, ih (Nat.succ.inj hlen) (by omega)]
      · rw [if_neg hab] at h
        omega

theorem commonFront_comm (lhs rhs : Bytes) : commonFront rhs lhs = commonFront lhs rhs := by
  induction lhs generalizing rhs with
  | nil => cases rhs <;> rfl
  | cons a lhs ih =>
    cases rhs with
    | nil => rfl
    | cons b rhs => simp only [commonFront, ih, eq_comm]

/-! ## The other way round -/

/-- The shares of both texts are added. -/
theorem jaro_comm {σ : Type} [Score σ] (hadd : ∀ x y : σ, x + y = y + x) (pairs half left right : Nat) :
    (jaro pairs half left right : σ) = jaro pairs half right left := by
  unfold jaro
  dsimp only
  rw [hadd (_ / (left : σ))]

/-- Which text is the left one makes no difference to the pairing, to what is counted in it and, as far as the order of
    two addends makes none, to the similarity. -/
theorem measure_symmetric (lhs rhs : Bytes) :
    (paired (pairing rhs lhs).1).length = (paired (pairing lhs rhs).1).length ∧
      halfTranspositions (paired (pairing rhs lhs).1) (paired (pairing rhs lhs).2) =
        halfTranspositions (paired (pairing lhs rhs).1) (paired (pairing lhs rhs).2) ∧
      commonFront rhs lhs = commonFront lhs rhs ∧
      (pairing rhs lhs).1 = (pairing lhs rhs).2 ∧ (pairing rhs lhs).2 = (pairing lhs rhs).1 ∧
      ∀ {σ : Type} [Score σ], (∀ x y : σ, x + y = y + x) → (measure rhs lhs : σ) = measure lhs rhs := by
  have hswap := pairing_swap lhs rhs
  have hpairs : (paired (pairing lhs rhs).2).length = (paired (pairing lhs rhs).1).length :=
    (paired_perm lhs rhs).length_eq.symm
  have hhalf := halfTranspositions_comm (paired (pairing lhs rhs).1) (paired (pairing lhs rhs).2)
  rw [hswap]
  refine ⟨hpairs, hhalf, commonFront_comm lhs rhs, rfl, rfl, ?_⟩
  intro σ _ hadd
  unfold measure
  rw [hswap, Bool.and_comm, Bool.or_comm, commonFront_comm]
  simp only [Prod.fst_swap, Prod.snd_swap, hpairs, hhalf, jaro_comm hadd _ _ rhs.length]

/-- A byte that occurs again and one that stands in another order. -/
theorem measure_symmetric_repeated :
    (pairing (ascii "abba") (ascii "babab")).1 = [(97, true), (98, true), (98, true), (97, true)] ∧
      (∀ x y : Rat, x + y = y + x) ∧
      (paired (pairing (ascii "babab") (ascii "abba")).1).length =
        (paired (pairing (ascii "abba") (ascii "babab")).1).length ∧
      (measure (ascii "babab") (ascii "abba") : Rat) = measure (ascii "abba") (ascii "babab") := by
  obtain ⟨hpairs, -, -, -, -, hmeasure⟩ := measure_symmetric (ascii "abba") (ascii "babab")
  exact ⟨by decide, Rat.add_comm, hpairs, hmeasure Rat.add_comm⟩

/-! ## At most 1 -/

theorem share_le_one {n k : Nat} (h : n ≤ k) : (n : Rat) / k ≤ 1 := by
  have hcast : (n : Rat) ≤ k := by exact_mod_cast h
  exact div_le_one_of_le₀ hcast (Nat.cast_nonneg k)

/-- What the order of the pairs contributes. -/
theorem order_le_one (pairs half : Nat) : ((pairs : Rat) - (half : Rat) / 2) / pairs ≤ 1 := by
  have hhalf : (0 : Rat) ≤ half := Nat.cast_nonneg half
  exact div_le_one_of_le₀ (by linarith) (Nat.cast_nonneg pairs)

theorem jaro_le_one {pairs left right : Nat} (half : Nat) (hleft : pairs ≤ left) (hright : pairs ≤ right) :
    (jaro pairs half left right : Rat) ≤ 1 := by
  have h₁ := share_le_one hleft
  have h₂ := share_le_one hright
  have h₃ := order_le_one pairs half
  rw [jaro_eq]
  linarith

/-- All is alike only where all bytes of both texts are paired, in the same order. -/
theorem jaro_eq_one_iff {pairs half left right : Nat} (hpos : 0 < pairs) (hleft : pairs ≤ left) (hright : pairs ≤ right) :
    (jaro pairs half left right : Rat) = 1 ↔ left = pairs ∧ right = pairs ∧ half = 0 := by
  have hp : (pairs : Rat) ≠ 0 := by exact_mod_cast Nat.ne_of_gt hpos
  have hl : (left : Rat) ≠ 0 := by exact_mod_cast Nat.ne_of_gt (hpos.trans_le hleft)
  have hr : (right : Rat) ≠ 0 := by exact_mod_cast Nat.ne_of_gt (hpos.trans_le hright)
  constructor
  · intro h
    have h₁ := share_le_one hleft
    have h₂ := share_le_one hright
    have h₃ := order_le_one pairs half
    rw [jaro_eq] at h
    have hone₁ : (pairs : Rat) / left = 1 := by linarith
    have hone₂ : (pairs : Rat) / right = 1 := by linarith
    have hone₃ : ((pairs : Rat) - (half : Rat) / 2) / pairs = 1 := by linarith
    rw [div_eq_one_iff_eq hl] at hone₁
    rw [div_eq_one_iff_eq hr] at hone₂
    rw [div_eq_one_iff_eq hp] at hone₃
    refine ⟨?_, ?_, ?_⟩
    · exact_mod_cast hone₁.symm
    · exact_mod_cast hone₂.symm
    · have hzero : (half : Rat) = 0 := by linarith
      exact_mod_cast hzero
  · rintro ⟨rfl, rfl, rfl⟩
    rw [jaro_eq, div_self hp, Nat.cast_zero, zero_div, sub_zero, div_self hp]
    norm_num

theorem one_sub_boost (front : Nat) (x : Rat) : 1 - boost front x = (1 - x) * (1 - front / 10) := by
  rw [boost_eq]
  ring

theorem boost_le_one {front : Nat} (hfront : front ≤ 4) {x : Rat} (hx : x ≤ 1) : boost front x ≤ 1 := by
  have h4 : (front : Rat) ≤ 4 := by exact_mod_cast hfront
  have hrest : 0 ≤ (1 - x) * (1 - (front : Rat) / 10) := mul_nonneg (by linarith) (by linarith)
  rw [← one_sub_boost] at hrest
  linarith

theorem boost_eq_one_iff {front : Nat} (hfront : front ≤ 4) (x : Rat) : boost front x = 1 ↔ x = 1 := by
  have h4 : (front : Rat) ≤ 4 := by exact_mod_cast hfront
  have hrest : 1 - (front : Rat) / 10 ≠ 0 := by
    have hpos : 0 < 1 - (front : Rat) / 10 := by linarith
    exact hpos.ne'
  have hone : ∀ y : Rat, y = 1 ↔ 1 - y = 0 := fun y => by rw [sub_eq_zero, eq_comm]
  rw [hone, one_sub_boost, mul_eq_zero, or_iff_left hrest, ← hone]

/-! ## Paired bytes and all bytes -/

theorem length_paired_le (l : List (UInt8 × Bool)) : (paired l).length ≤ (unmarked l).length := by
  rw [paired, List.length_map, length_unmarked]
  exact List.length_filter_le _ _

theorem paired_eq_unmarked {l : List (UInt8 × Bool)} (h : (unmarked l).length = (paired l).length) :
    paired l = unmarked l := by
  rw [length_unmarked, paired, List.length_map, eq_comm, List.length_filter_eq_length_iff, ← List.filter_eq_self] at h
  rw [paired, h, unmarked]

/-- Where all bytes before it are taken, a byte takes the equal one behind them. -/
theorem partner?_behind {c : UInt8} {lo hi : Nat} (before : Bytes) (after : List (UInt8 × Bool)) :
    ∀ j, lo ≤ j + before.length → j + before.length < hi →
      partner? c lo hi j (before.map (·, true) ++ (c, false) :: after) =
        some (before.map (·, true) ++ (c, true) :: after) := by
  induction before with
  | nil =>
    intro j hlo hhi
    simp only [List.length_nil, Nat.add_zero] at hlo hhi
    simp [partner?, hlo, hhi]
  | cons d before ih =>
    intro j hlo hhi
    rw [List.length_cons] at hlo hhi
    have hrest := ih (j + 1) (by omega) (by omega)
    simp [partner?, hrest]

/-- Each byte of a text is paired with itself. -/
theorem pairFrom_self (w : Nat) (rest : Bytes) : ∀ before : Bytes,
    pairFrom w before.length rest (before.map (·, true) ++ rest.map (·, false)) =
      (rest.map (·, true), (before ++ rest).map (·, true)) := by
  induction rest with
  | nil =>
    intro before
    simp [pairFrom]
  | cons c rest ih =>
    intro before
    have hpartner : partner? c (before.length - w) (before.length + w + 1) 0
        (before.map (·, true) ++ (c, false) :: rest.map (·, false)) =
          some (before.map (·, true) ++ (c, true) :: rest.map (·, false)) :=
      partner?_behind before _ 0 (by omega) (by omega)
    have hnext := ih (before ++ [c])
    rw [List.length_append, List.map_append, List.append_assoc, List.append_assoc] at hnext
    rw [List.map_cons, pairFrom_some hpartner]
    exact Prod.ext (congrArg ((c, true) :: ·.1) hnext) (congrArg (·.2) hnext)

theorem pairing_self (text : Bytes) : pairing text text = (text.map (·, true), text.map (·, true)) :=
  pairFrom_self _ text []

theorem paired_taken (text : Bytes) : paired (text.map (·, true)) = text := by
  rw [paired, List.filter_eq_self.mpr (by simp), List.map_map]
  exact List.map_id text

/-! ## Bounds -/

/-- With a text that has no bytes nothing is compared. -/
theorem measure_of_nil {lhs rhs : Bytes} (h : lhs = [] ∨ rhs = []) :
    (measure lhs rhs : Rat) = if lhs = rhs then 1 else 0 := by
  rcases h with rfl | rfl
  · cases rhs <;> simp [measure]
  · cases lhs <;> simp [measure]

/-- The similarity of two texts that both have bytes. -/
theorem measure_of_ne_nil {lhs rhs : Bytes} (hl : lhs ≠ []) (hr : rhs ≠ []) :
    (measure lhs rhs : Rat) =
      if (paired (pairing lhs rhs).1).length = 0 then 0
      else boost (min 4 (commonFront lhs rhs))
        (jaro (paired (pairing lhs rhs).1).length
          (halfTranspositions (paired (pairing lhs rhs).1) (paired (pairing lhs rhs).2)) lhs.length rhs.length) := by
  simp [measure, hl, hr]

theorem pairs_le (lhs rhs : Bytes) :
    (paired (pairing lhs rhs).1).length ≤ lhs.length ∧ (paired (pairing lhs rhs).1).length ≤ rhs.length := by
  obtain ⟨hl, hr⟩ := unmarked_pairing lhs rhs
  have hleft := length_paired_le (pairing lhs rhs).1
  have hright := length_paired_le (pairing lhs rhs).2
  rw [hl] at hleft
  rw [hr, ← (paired_perm lhs rhs).length_eq] at hright
  exact ⟨hleft, hright⟩

theorem measure_le_one (lhs rhs : Bytes) : (measure lhs rhs : Rat) ≤ 1 := by
  by_cases hnil : lhs = [] ∨ rhs = []
  · rw [measure_of_nil hnil]
    split
    · exact le_rfl
    · exact zero_le_one
  obtain ⟨hl, hr⟩ := not_or.mp hnil
  rw [measure_of_ne_nil hl hr]
  obtain ⟨hleft, hright⟩ := pairs_le lhs rhs
  split
  · exact zero_le_one
  · exact boost_le_one (Nat.min_le_left _ _) (jaro_le_one _ hleft hright)

/-- Two texts are as similar as can be only if they are equal. -/
theorem measure_eq_one_iff (lhs rhs : Bytes) : (measure lhs rhs : Rat) = 1 ↔ lhs = rhs := by
  by_cases hnil : lhs = [] ∨ rhs = []
  · rw [measure_of_nil hnil]
    split
    case isTrue heq => exact iff_of_true rfl heq
    case isFalse hne => exact iff_of_false zero_ne_one hne
  obtain ⟨hl, hr⟩ := not_or.mp hnil
  obtain ⟨hleft, hright⟩ := pairs_le lhs rhs
  obtain ⟨htextl, htextr⟩ := unmarked_pairing lhs rhs
  rw [measure_of_ne_nil hl hr]
  constructor
  · intro h
    split at h
    case isTrue => exact absurd h zero_ne_one
    case isFalse hpairs =>
      rw [boost_eq_one_iff (Nat.min_le_left _ _), jaro_eq_one_iff (Nat.pos_of_ne_zero hpairs) hleft hright] at h
      obtain ⟨hall, hall', hhalf⟩ := h
      have hlen := (paired_perm lhs rhs).length_eq
      have hallLeft : paired (pairing lhs rhs).1 = lhs := (paired_eq_unmarked (by rw [htextl, hall])).trans htextl
      have hallRight : paired (pairing lhs rhs).2 = rhs :=
        (paired_eq_unmarked (by rw [htextr, hall', hlen])).trans htextr
      calc lhs
          = paired (pairing lhs rhs).1 := hallLeft.symm
        _ = paired (pairing lhs rhs).2 := eq_of_halfTranspositions_eq_zero hlen hhalf
        _ = rhs := hallRight
  · rintro rfl
    have hpairs : lhs.length ≠ 0 := mt List.length_eq_zero_iff.mp hl
    rw [pairing_self, paired_taken, if_neg hpairs, halfTranspositions_self, boost_eq_one_iff (Nat.min_le_left _ _),
      jaro_eq_one_iff (Nat.pos_of_ne_zero hpairs) le_rfl le_rfl]
    exact ⟨rfl, rfl, rfl⟩

end CommandGrammar.Similarity
