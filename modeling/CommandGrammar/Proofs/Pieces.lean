/-
  CommandGrammar.Proofs.Pieces — a text that is cut into pieces.

  A lexer that leaves out blanks, and nothing else, cuts a text into pieces that stand one
  behind the other with blanks between them (`Pieces`). Each piece then has a span of its
  own in the text, and every byte that is in none of the spans is a blank
  (`Pieces.partition`).
-/

import CommandGrammar.Bytes

namespace CommandGrammar

/-! ## Slices -/

theorem Bytes.slice_append_left (front text : Bytes) : (front ++ text).slice 0 front.length = front := by
  simp [slice]

theorem Bytes.slice_append_right (front text : Bytes) {start stop : Nat} (h : front.length ≤ start) :
    (front ++ text).slice start stop = text.slice (start - front.length) (stop - front.length) := by
  have hskip : front.drop start = [] := List.drop_eq_nil_of_le h
  rw [slice, slice, List.drop_append, hskip, List.nil_append]
  congr 1
  omega

/-! ## Pieces -/

/-- A piece of a text: the place where it starts, the place behind it, and the bytes between. -/
structure Piece where
  start : Nat
  stop : Nat
  text : Bytes

/-- The text, which starts at the place `lo`, is the pieces in this order, with blanks between them. -/
inductive Pieces : Nat → Bytes → List Piece → Prop
  | nil (lo : Nat) : Pieces lo [] []
  | blank {lo : Nat} {c : UInt8} {text : Bytes} {ps : List Piece} : isBlank c = true → Pieces (lo + 1) text ps →
      Pieces lo (c :: text) ps
  | piece {lo : Nat} {front text : Bytes} {ps : List Piece} : front ≠ [] → Pieces (lo + front.length) text ps →
      Pieces lo (front ++ text) (⟨lo, lo + front.length, front⟩ :: ps)

/-- The pieces have spans of their own in the text, in this order, and there are only blanks outside of them. -/
structure Partition (text : Bytes) (ps : List Piece) : Prop where
  spans : ∀ p ∈ ps, p.start < p.stop ∧ p.stop ≤ text.length
  ordered : ps.Pairwise fun p q => p.stop ≤ q.start
  slices : ∀ p ∈ ps, p.text = text.slice p.start p.stop
  blank : ∀ i c, text[i]? = some c → (∀ p ∈ ps, ¬ (p.start ≤ i ∧ i < p.stop)) → isBlank c = true

namespace Pieces

variable {lo : Nat} {text : Bytes} {ps : List Piece}

theorem spans (h : Pieces lo text ps) : ∀ p ∈ ps, lo ≤ p.start ∧ p.start < p.stop ∧ p.stop ≤ lo + text.length := by
  induction h with
  | nil => exact List.forall_mem_nil _
  | blank _ _ ih =>
    intro p hp
    have hp := ih p hp
    rw [List.length_cons]
    omega
  | piece hne _ ih =>
    rw [List.forall_mem_cons]
    have hlen := List.length_pos_iff.mpr hne
    refine ⟨⟨Nat.le_refl _, by dsimp only; omega, by simp⟩, fun p hp => ?_⟩
    have hp := ih p hp
    rw [List.length_append]
    omega

theorem ordered (h : Pieces lo text ps) : ps.Pairwise fun p q => p.stop ≤ q.start := by
  induction h with
  | nil => exact List.Pairwise.nil
  | blank _ _ ih => exact ih
  | piece _ hrest ih => exact List.pairwise_cons.mpr ⟨fun q hq => (hrest.spans q hq).1, ih⟩

/-- Places count from `lo`, where the text starts. -/
theorem slices (h : Pieces lo text ps) : ∀ p ∈ ps, p.text = text.slice (p.start - lo) (p.stop - lo) := by
  induction h with
  | nil => exact List.forall_mem_nil _
  | @blank lo c text ps _ hrest ih =>
    intro p hp
    have hstart := (hrest.spans p hp).1
    have hone : [c].length ≤ p.start - lo := by
      rw [List.length_singleton]
      omega
    rw [ih p hp, ← List.singleton_append, Bytes.slice_append_right [c] text hone, List.length_singleton, Nat.sub_sub,
      Nat.sub_sub]
  | @piece lo front text ps _ hrest ih =>
    rw [List.forall_mem_cons]
    constructor
    · simp only [Nat.sub_self, Nat.add_sub_cancel_left, Bytes.slice_append_left]
    · intro p hp
      have hstart := (hrest.spans p hp).1
      rw [ih p hp, Bytes.slice_append_right front text (by omega), Nat.sub_sub, Nat.sub_sub]

theorem blank_outside (h : Pieces lo text ps) : ∀ {i : Nat} {c : UInt8}, text[i]? = some c →
    (∀ p ∈ ps, ¬ (p.start ≤ lo + i ∧ lo + i < p.stop)) → isBlank c = true := by
  induction h with
  | nil =>
    intro i c hc
    simp at hc
  | @blank lo d text ps hblank _ ih =>
    intro i c hc hout
    cases i with
    | zero =>
      rw [List.getElem?_cons_zero] at hc
      exact Option.some.inj hc ▸ hblank
    | succ i =>
      rw [List.getElem?_cons_succ] at hc
      refine ih hc fun p hp => ?_
      have hp := hout p hp
      rwa [Nat.add_right_comm, Nat.add_assoc]
  | @piece lo front text ps _ _ ih =>
    intro i c hc hout
    rw [List.forall_mem_cons] at hout
    have hbehind : front.length ≤ i := by
      have hfront := hout.1
      dsimp only at hfront
      omega
    rw [List.getElem?_append_right hbehind] at hc
    refine ih hc fun p hp => ?_
    have hp := hout.2 p hp
    rwa [Nat.add_assoc, Nat.add_sub_cancel' hbehind]

theorem partition (h : Pieces 0 text ps) : Partition text ps where
  spans p hp := by
    have hspan := h.spans p hp
    omega
  ordered := h.ordered
  slices := h.slices
  blank i c hc hout := h.blank_outside hc (by simpa using hout)

end Pieces

end CommandGrammar
