/-
  CommandGrammar.Proofs.Similarity.Loops — pairing and comparing by position stays within both texts.

  The pairs can be found with a mark for each position of either text and a counter, and
  compared by going through the marks of both texts at once. Here every position is read
  with the question whether there is one (`pairLoop`, `compareLoop`). Neither loop ever
  asks in vain. Above all, the search for the next mark on the right has no bound of its
  own: it ends because there are as many marks on the right as on the left, and each of
  them is passed once for one on the left. What the loops come to is the pairing and the
  number of paired bytes that stand in another order (`loops_inBounds`).
-/

import CommandGrammar.Proofs.Similarity.Measure

namespace CommandGrammar.Similarity

/-! ## The loops -/

/-- Which positions of both texts are paired, and how many pairs were counted. -/
structure Marks where
  left : List Bool
  right : List Bool
  pairs : Nat
  deriving DecidableEq, Repr

/-- Marks a position, which there must be. -/
def mark? (marks : List Bool) (i : Nat) : Option (List Bool) :=
  if i < marks.length then some (marks.set i true) else none

/-- Pairs the byte at position `i` with the first of the given positions that holds an equal byte and is not marked. -/
def pairWith (lhs rhs : Bytes) (i : Nat) : List Nat → Marks → Option Marks
  | [], s => some s
  | j :: js, s => do
    if ← s.right[j]? then pairWith lhs rhs i js s
    else if (← lhs[i]?) = (← rhs[j]?) then
      return ⟨← mark? s.left i, ← mark? s.right j, s.pairs + 1⟩
    else pairWith lhs rhs i js s

/-- The positions on the right that are not further than `w` away from `i`. -/
def nearby (w i length : Nat) : List Nat :=
  List.range' (i - w) (min (i + w + 1) length - (i - w))

def pairLoop (lhs rhs : Bytes) : Option Marks :=
  (List.range lhs.length).foldlM (fun s i => pairWith lhs rhs i (nearby (window lhs rhs) i rhs.length) s)
    ⟨List.replicate lhs.length false, List.replicate rhs.length false, 0⟩

/-- The position of the first mark, where the list starts at position `j`. -/
def nextMark? (j : Nat) : List Bool → Option Nat
  | [] => none
  | true :: _ => some j
  | false :: marks => nextMark? (j + 1) marks

/-- Compares the byte at position `i`, if it is paired, with the next paired byte on the right. The state counts those
    that differ, and says where the search on the right goes on. -/
def compareAt (lhs rhs : Bytes) (left right : List Bool) (s : Nat × Nat) (i : Nat) : Option (Nat × Nat) := do
  if ← left[i]? then
    let j ← nextMark? s.2 (right.drop s.2)
    return (if (← lhs[i]?) = (← rhs[j]?) then s.1 else s.1 + 1, j + 1)
  else return s

def compareLoop (lhs rhs : Bytes) (s : Marks) : Option Nat :=
  ((List.range lhs.length).foldlM (compareAt lhs rhs s.left s.right) (0, 0)).map (·.1)

/-! ## Pairing -/

def marksOf (l : List (UInt8 × Bool)) : List Bool :=
  l.map (·.2)

theorem length_marksOf (l : List (UInt8 × Bool)) : (marksOf l).length = l.length :=
  List.length_map _

theorem marksOf_cons (c : UInt8) (b : Bool) (l : List (UInt8 × Bool)) : marksOf ((c, b) :: l) = b :: marksOf l :=
  rfl

theorem zip_marksOf (l : List (UInt8 × Bool)) : (unmarked l).zip (marksOf l) = l := by
  rw [unmarked, marksOf, ← List.unzip_fst, ← List.unzip_snd, List.zip_unzip]

theorem count_marksOf (l : List (UInt8 × Bool)) : (marksOf l).count true = (paired l).length := by
  rw [marksOf, paired, List.length_map, List.count, List.countP_map, List.countP_eq_length_filter]
  congr 2
  funext x
  exact beq_true x.2

section

variable {l : List (UInt8 × Bool)} {i : Nat} {c : UInt8} {b : Bool}

theorem marksOf_eq_some (h : l[i]? = some (c, b)) : (marksOf l)[i]? = some b := by
  rw [marksOf, List.getElem?_map, h]
  rfl

theorem unmarked_eq_some (h : l[i]? = some (c, b)) : (unmarked l)[i]? = some c := by
  rw [unmarked, List.getElem?_map, h]
  rfl

theorem mark?_eq_some {marks : List Bool} (h : i < marks.length) : mark? marks i = some (marks.set i true) :=
  if_pos h

theorem paired_cons (c : UInt8) (b : Bool) (l : List (UInt8 × Bool)) :
    paired ((c, b) :: l) = if b then c :: paired l else paired l := by
  cases b <;> rfl

end

section

variable {lhs : Bytes} {r : List (UInt8 × Bool)} {left : List Bool} {i : Nat} {c : UInt8} {pairs : Nat}

theorem pairWith_cons (hi : lhs[i]? = some c) (hleft : i < left.length) {j : Nat} {d : UInt8} {taken : Bool}
    (hj : r[j]? = some (d, taken)) (js : List Nat) :
    pairWith lhs (unmarked r) i (j :: js) ⟨left, marksOf r, pairs⟩ =
      if taken = false ∧ c = d then some ⟨left.set i true, marksOf (r.set j (c, true)), pairs + 1⟩
      else pairWith lhs (unmarked r) i js ⟨left, marksOf r, pairs⟩ := by
  have hmark := marksOf_eq_some hj
  have hbyte := unmarked_eq_some hj
  have hlen : j < (marksOf r).length := (List.getElem?_eq_some_iff.mp hmark).1
  have hset : (marksOf r).set j true = marksOf (r.set j (c, true)) := by rw [marksOf, marksOf, List.map_set]
  rw [pairWith, hmark]
  cases taken with
  | true => rfl
  | false =>
    by_cases hcd : c = d
    · subst hcd
      rw [if_pos ⟨rfl, rfl⟩, ← hset]
      simp only [hi, hbyte, mark?_eq_some hleft, mark?_eq_some hlen, Option.bind_eq_bind, Option.bind_some, Option.pure_def,
        if_true, Bool.false_eq_true, if_false]
    · simp [hi, hbyte, hcd]

/-- Where no equal byte is free, nothing is paired. -/
theorem pairWith_none (hi : lhs[i]? = some c) (hleft : i < left.length) (n : Nat) : ∀ b, b + n ≤ r.length →
    (∀ k, b ≤ k → k < b + n → r[k]? ≠ some (c, false)) →
      pairWith lhs (unmarked r) i (List.range' b n) ⟨left, marksOf r, pairs⟩ = some ⟨left, marksOf r, pairs⟩ := by
  induction n with
  | zero => exact fun _ _ _ => rfl
  | succ n ih =>
    intro b hlen hnone
    obtain ⟨⟨d, taken⟩, hb⟩ : ∃ x, r[b]? = some x := ⟨_, List.getElem?_eq_getElem (by omega)⟩
    have hother : ¬ (taken = false ∧ c = d) := by
      rintro ⟨rfl, rfl⟩
      exact hnone b (Nat.le_refl b) (by omega) hb
    rw [List.range'_succ, pairWith_cons hi hleft hb, if_neg hother]
    exact ih (b + 1) (by omega) fun k hk hk' => hnone k (by omega) (by omega)

/-- The first equal byte that is free is paired. -/
theorem pairWith_some (hi : lhs[i]? = some c) (hleft : i < left.length) {k : Nat} (hk : r[k]? = some (c, false)) (n : Nat) :
    ∀ b, b + n ≤ r.length → b ≤ k → k < b + n → (∀ k' < k, b ≤ k' → r[k']? ≠ some (c, false)) →
      pairWith lhs (unmarked r) i (List.range' b n) ⟨left, marksOf r, pairs⟩ =
        some ⟨left.set i true, marksOf (r.set k (c, true)), pairs + 1⟩ := by
  induction n with
  | zero =>
    intro b _ hb hkb
    omega
  | succ n ih =>
    intro b hlen hbk hkb hfirst
    rw [List.range'_succ]
    rcases Nat.eq_or_lt_of_le hbk with rfl | hlt
    · rw [pairWith_cons hi hleft hk, if_pos ⟨rfl, rfl⟩]
    · obtain ⟨⟨d, taken⟩, hb⟩ : ∃ x, r[b]? = some x := ⟨_, List.getElem?_eq_getElem (by omega)⟩
      have hother : ¬ (taken = false ∧ c = d) := by
        rintro ⟨rfl, rfl⟩
        exact hfirst b hlt (Nat.le_refl b) hb
      rw [pairWith_cons hi hleft hb, if_neg hother]
      exact ih (b + 1) (by omega) hlt (by omega) fun k' hk' hb' => hfirst k' hk' (by omega)

/-- The positions nearby are those that the pairing looks at. -/
theorem pairWith_nearby (hi : lhs[i]? = some c) (hleft : i < left.length) (w : Nat) :
    pairWith lhs (unmarked r) i (nearby w i r.length) ⟨left, marksOf r, pairs⟩ =
      match partner? c (i - w) (i + w + 1) 0 r with
      | none => some ⟨left, marksOf r, pairs⟩
      | some r' => some ⟨left.set i true, marksOf r', pairs + 1⟩ := by
  rw [nearby]
  by_cases hempty : r.length ≤ i - w
  · have hnone : partner? c (i - w) (i + w + 1) 0 r = none := by
      cases hp : partner? c (i - w) (i + w + 1) 0 r with
      | none => rfl
      | some r' =>
        obtain ⟨k, hlo, _, hk, _⟩ := partner?_eq_some hp
        have hlt := (List.getElem?_eq_some_iff.mp hk).1
        omega
    have hnear : min (i + w + 1) r.length - (i - w) = 0 := by omega
    rw [hnone, hnear]
    rfl
  · have hlen : i - w + (min (i + w + 1) r.length - (i - w)) ≤ r.length := by omega
    cases hp : partner? c (i - w) (i + w + 1) 0 r with
    | none =>
      have hnone := partner?_eq_none hp
      exact pairWith_none hi hleft _ _ hlen fun k hk hk' => hnone k (by omega) (by omega)
    | some r' =>
      obtain ⟨k, hlo, hhi, hk, rfl, hfirst⟩ := partner?_eq_some hp
      have hlt := (List.getElem?_eq_some_iff.mp hk).1
      exact pairWith_some hi hleft hk _ _ hlen (by omega) (by omega) fun k' hk' hb => hfirst k' hk' (by omega)

end

/-- The loop over the positions of the left text does what is done byte by byte. -/
theorem pairLoop_from (w : Nat) (rest : Bytes) : ∀ (before : Bytes) (left : List Bool) (r : List (UInt8 × Bool)) (pairs : Nat),
    left.length = before.length →
      (List.range' before.length rest.length).foldlM
          (fun s i => pairWith (before ++ rest) (unmarked r) i (nearby w i (unmarked r).length) s)
          (⟨left ++ List.replicate rest.length false, marksOf r, pairs⟩ : Marks) =
        some ⟨left ++ marksOf (pairFrom w before.length rest r).1, marksOf (pairFrom w before.length rest r).2,
          pairs + (paired (pairFrom w before.length rest r).1).length⟩ := by
  induction rest with
  | nil => exact fun _ _ _ _ _ => rfl
  | cons c rest ih =>
    intro before left r pairs hlen
    have hi : (before ++ c :: rest)[before.length]? = some c := by simp
    have hleft : before.length < (left ++ List.replicate (rest.length + 1) false).length := by simp [hlen]
    have hbefore : before ++ c :: rest = (before ++ [c]) ++ rest := List.append_cons before c rest
    -- the marks of what is done, the mark of this byte, and those of what is left
    have hmarks : ∀ b marks, left ++ b :: marks = (left ++ [b]) ++ marks := fun b marks => List.append_cons left b marks
    have hnext := fun b => ih (before ++ [c]) (left ++ [b])
    simp only [List.length_append, List.length_singleton, hlen, forall_const] at hnext
    rw [List.length_cons, List.range'_succ, List.foldlM_cons, length_unmarked, pairWith_nearby hi hleft w]
    cases hpartner : partner? c (before.length - w) (before.length + w + 1) 0 r with
    | none =>
      rw [pairFrom_none hpartner, paired_cons, marksOf_cons, hmarks, List.replicate_succ, hmarks, hbefore,
        ← length_unmarked]
      exact hnext false r pairs
    | some r' =>
      obtain ⟨k, _, _, hk, rfl, _⟩ := partner?_eq_some hpartner
      have hrest := hnext true (r.set k (c, true)) (pairs + 1)
      rw [unmarked_set hk, Nat.add_assoc pairs 1, Nat.add_comm 1] at hrest
      have hset : (left ++ List.replicate (rest.length + 1) false).set before.length true =
          (left ++ [true]) ++ List.replicate rest.length false := by
        rw [← hlen, List.set_append_right _ _ (Nat.le_refl _), Nat.sub_self, List.replicate_succ, List.set_cons_zero, hmarks]
      rw [pairFrom_some hpartner, paired_cons, if_pos rfl, List.length_cons, marksOf_cons, hmarks, hbefore,
        ← length_unmarked]
      simp only [hset]
      exact hrest

theorem pairLoop_eq (lhs rhs : Bytes) :
    pairLoop lhs rhs =
      some ⟨marksOf (pairing lhs rhs).1, marksOf (pairing lhs rhs).2, (paired (pairing lhs rhs).1).length⟩ := by
  have hfree : marksOf (rhs.map (·, false)) = List.replicate rhs.length false := by
    simp [marksOf, Function.comp_def]
  have hloop := pairLoop_from (window lhs rhs) lhs [] [] (rhs.map (·, false)) 0 rfl
  rw [unmarked_free, hfree] at hloop
  simpa [pairLoop, List.range_eq_range', pairing] using hloop

/-! ## Comparing -/

/-- The search for the next mark ends at a position of the text as long as a paired byte is left. -/
theorem nextMark?_eq {r : List (UInt8 × Bool)} {d : UInt8} {ds : Bytes} (h : paired r = d :: ds) :
    ∀ j, ∃ k, nextMark? j (marksOf r) = some (j + k) ∧ r[k]? = some (d, true) ∧ paired (r.drop (k + 1)) = ds := by
  induction r with
  | nil => cases h
  | cons x r ih =>
    obtain ⟨c, taken⟩ := x
    intro j
    cases taken with
    | true =>
      obtain ⟨rfl, hds⟩ := List.cons.inj h
      exact ⟨0, rfl, rfl, hds⟩
    | false =>
      obtain ⟨k, hnext, hk, hds⟩ := ih h (j + 1)
      exact ⟨k + 1, by rw [← Nat.add_assoc, Nat.add_right_comm]; exact hnext, hk, hds⟩

/-- As long as no fewer paired bytes are left on the right than on the left, the loop finds one for each. -/
theorem compareLoop_from {l r : List (UInt8 × Bool)} (rest : List (UInt8 × Bool)) : ∀ before, l = before ++ rest →
    ∀ half j, (paired rest).length ≤ (paired (r.drop j)).length →
      ∃ j', (List.range' before.length rest.length).foldlM (compareAt (unmarked l) (unmarked r) (marksOf l) (marksOf r))
        (half, j) = some (half + halfTranspositions (paired rest) (paired (r.drop j)), j') := by
  induction rest with
  | nil => exact fun before _ half j _ => ⟨j, rfl⟩
  | cons x rest ih =>
    intro before hl half j hlen
    obtain ⟨c, marked⟩ := x
    have hi : l[before.length]? = some (c, marked) := by simp [hl]
    have hmark := marksOf_eq_some hi
    have hbyte := unmarked_eq_some hi
    have hnext := ih (before ++ [(c, marked)]) (by rw [hl, List.append_cons])
    rw [List.length_append, List.length_singleton] at hnext
    rw [List.length_cons, List.range'_succ, List.foldlM_cons]
    cases marked with
    | false =>
      obtain ⟨j', hrest⟩ := hnext half j hlen
      refine ⟨j', ?_⟩
      rw [compareAt, hmark]
      exact hrest
    | true =>
      obtain ⟨d, ds, hpaired⟩ : ∃ d ds, paired (r.drop j) = d :: ds := by
        cases hp : paired (r.drop j) with
        | nil =>
          rw [hp] at hlen
          cases hlen
        | cons d ds => exact ⟨d, ds, rfl⟩
      obtain ⟨k, hk, hd, hds⟩ := nextMark?_eq hpaired j
      rw [List.getElem?_drop] at hd
      rw [List.drop_drop, ← Nat.add_assoc] at hds
      have hright := unmarked_eq_some hd
      have hsearch : nextMark? j ((marksOf r).drop j) = some (j + k) := by rwa [marksOf, ← List.map_drop]
      rw [hpaired, paired_cons, if_pos rfl] at hlen ⊢
      obtain ⟨j', hrest⟩ := hnext (if c = d then half else half + 1) (j + k + 1)
        (by rw [hds]; exact Nat.le_of_succ_le_succ hlen)
      refine ⟨j', ?_⟩
      have hat : compareAt (unmarked l) (unmarked r) (marksOf l) (marksOf r) (half, j) before.length =
          some (if c = d then half else half + 1, j + k + 1) := by
        simp [compareAt, hmark, hsearch, hbyte, hright]
      have hcount : half + halfTranspositions (c :: paired rest) (d :: ds) =
          (if c = d then half else half + 1) + halfTranspositions (paired rest) ds := by
        rw [halfTranspositions_cons]
        split <;> omega
      rw [hat, hcount, ← hds]
      exact hrest

theorem compareLoop_eq {l r : List (UInt8 × Bool)} (h : (paired l).length ≤ (paired r).length) (pairs : Nat) :
    compareLoop (unmarked l) (unmarked r) ⟨marksOf l, marksOf r, pairs⟩ =
      some (halfTranspositions (paired l) (paired r)) := by
  obtain ⟨j, hloop⟩ := compareLoop_from (l := l) l [] rfl 0 0 h
  rw [List.length_nil, List.drop_zero, Nat.zero_add] at hloop
  rw [compareLoop, length_unmarked, List.range_eq_range', hloop]
  rfl

/-! ## A single byte cannot stand in another order -/

theorem exists_of_halfTranspositions_eq_one {l r : Bytes} (hlen : l.length = r.length) (h : halfTranspositions l r = 1) :
    ∃ front a b behind, a ≠ b ∧ l = front ++ a :: behind ∧ r = front ++ b :: behind := by
  induction l generalizing r with
  | nil => cases h
  | cons a l ih =>
    cases r with
    | nil => cases hlen
    | cons b r =>
      have hlen' : l.length = r.length := Nat.succ.inj hlen
      rw [halfTranspositions_cons] at h
      by_cases hab : a = b
      · rw [if_pos hab] at h
        obtain ⟨front, c, d, behind, hcd, rfl, rfl⟩ := ih hlen' h
        exact ⟨a :: front, c, d, behind, hcd, rfl, by rw [hab]; rfl⟩
      · rw [if_neg hab] at h
        have hrest := eq_of_halfTranspositions_eq_zero hlen' (by omega)
        exact ⟨[], a, b, l, hab, rfl, by rw [hrest]; rfl⟩

/-- Of texts with the same bytes, a byte that stands in another order is missed in some other place. -/
theorem halfTranspositions_ne_one {l r : Bytes} (h : l.Perm r) : halfTranspositions l r ≠ 1 := by
  intro hone
  obtain ⟨front, a, b, behind, hab, rfl, rfl⟩ := exists_of_halfTranspositions_eq_one h.length_eq hone
  have hcount := ((List.perm_append_left_iff front).mp h).count_eq a
  rw [List.count_cons_self, List.count_cons_of_ne hab.symm] at hcount
  omega

/-! ## In bounds -/

/-- The window is a number, and both loops read and mark only positions that there are. As many positions are marked on
    either side as pairs are counted, no more than the shorter text has, with the same bytes; so for each mark on the
    left there is one on the right. Of the paired bytes no more differ than there are, and never just one does. -/
theorem loops_inBounds (lhs rhs : Bytes) :
    (if 2 ≤ max lhs.length rhs.length then 1 else 0) ≤ max lhs.length rhs.length / 2 ∧
      window lhs rhs = max lhs.length rhs.length / 2 - (if 2 ≤ max lhs.length rhs.length then 1 else 0) ∧
      ∃ s half, pairLoop lhs rhs = some s ∧ compareLoop lhs rhs s = some half ∧
        s.left.length = lhs.length ∧ s.right.length = rhs.length ∧
        s.left.count true = s.pairs ∧ s.right.count true = s.pairs ∧ s.pairs ≤ min lhs.length rhs.length ∧
        (paired (lhs.zip s.left)).Perm (paired (rhs.zip s.right)) ∧ half ≤ s.pairs ∧ half ≠ 1 ∧
        pairing lhs rhs = (lhs.zip s.left, rhs.zip s.right) ∧
        half = halfTranspositions (paired (lhs.zip s.left)) (paired (rhs.zip s.right)) := by
  have hlonger : (if 2 ≤ max lhs.length rhs.length then 1 else 0) ≤ max lhs.length rhs.length / 2 := by
    split <;> omega
  have hwindow : window lhs rhs = max lhs.length rhs.length / 2 - (if 2 ≤ max lhs.length rhs.length then 1 else 0) := by
    simp only [window]
    split <;> omega
  obtain ⟨hl, hr⟩ := unmarked_pairing lhs rhs
  have hperm := paired_perm lhs rhs
  have hpairs := pairs_le lhs rhs
  have hcompare := compareLoop_eq hperm.length_eq.le (paired (pairing lhs rhs).1).length
  have hleft := zip_marksOf (pairing lhs rhs).1
  have hright := zip_marksOf (pairing lhs rhs).2
  rw [hl] at hleft
  rw [hr] at hright
  rw [hl, hr] at hcompare
  refine ⟨hlonger, hwindow, _, _, pairLoop_eq lhs rhs, hcompare, ?_, ?_, ?_, ?_, ?_, ?_, ?_, ?_, ?_, ?_⟩
  · rw [length_marksOf, ← length_unmarked, hl]
  · rw [length_marksOf, ← length_unmarked, hr]
  · exact count_marksOf _
  · exact (count_marksOf _).trans hperm.length_eq.symm
  · exact Nat.le_min.mpr hpairs
  · rw [hleft, hright]
    exact hperm
  · exact halfTranspositions_le _ _
  · exact halfTranspositions_ne_one hperm
  · rw [hleft, hright]
  · rw [hleft, hright]

example : pairLoop (ascii "abba") (ascii "babab") =
    some ⟨[true, true, true, true], [true, true, true, true, false], 4⟩ := by decide

end CommandGrammar.Similarity
