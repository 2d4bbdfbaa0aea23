/-
  CommandGrammar.Proofs.Value.Integers — which texts are integers.

  A numeral is a run of digits with or without a minus sign, and its number is told by
  the places of the digits (`Numeral`). Without the blanks around it and one plus sign a
  text is read as far as it is a numeral: it is an integer if that is all of it and the
  number has 64 bits, and out of range if the number has more, whatever stands behind it
  (`readInt_exact`). The decimal text of every number of 64 bits is read as that number.
-/

import CommandGrammar.Value.Number
import Mathlib.Data.List.DropRight
import Mathlib.Data.Nat.Digits.Defs

namespace CommandGrammar

/-! ## Blanks around a text -/

/-- `t` is `s` without the blanks around it. -/
structure Trimmed (s t : Bytes) : Prop where
  around : ∃ front back, s = front ++ t ++ back ∧ (∀ c ∈ front, isBlank c = true) ∧ ∀ c ∈ back, isBlank c = true
  first : ∀ c ∈ t.head?, isBlank c = false
  last : ∀ c ∈ t.getLast?, isBlank c = false

theorem dropWhile_of_first {t : Bytes} (h : ∀ c ∈ t.head?, isBlank c = false) : t.dropWhile isBlank = t := by
  cases t with
  | nil => rfl
  | cons c t =>
    have hc : isBlank c = false := h c rfl
    exact List.dropWhile_cons_of_neg (by simp [hc])

theorem Trimmed.trim_eq {s t : Bytes} (h : Trimmed s t) : s.trim = t := by
  obtain ⟨front, back, rfl, hfront, hback⟩ := h.around
  have hlast : ∀ c ∈ t.reverse.head?, isBlank c = false := by
    rw [List.head?_reverse]
    exact h.last
  rw [Bytes.trim, List.append_assoc, List.dropWhile_append_of_pos hfront]
  cases t with
  | nil =>
    rw [List.nil_append, List.dropWhile_eq_nil_iff.mpr hback]
    rfl
  | cons c t =>
    have hstart : (c :: t ++ back).dropWhile isBlank = c :: t ++ back := dropWhile_of_first h.first
    rw [hstart, List.reverse_append, List.dropWhile_append_of_pos (by simpa using hback), dropWhile_of_first hlast,
      List.reverse_reverse]

theorem trimmed_trim (s : Bytes) : Trimmed s s.trim := by
  have htrim : s.trim = (s.dropWhile isBlank).rdropWhile isBlank := rfl
  refine ⟨⟨s.takeWhile isBlank, (s.dropWhile isBlank).rtakeWhile isBlank, ?_, ?_, ?_⟩, ?_, ?_⟩
  · rw [htrim, List.append_assoc, List.rdropWhile_append_rtakeWhile, List.takeWhile_append_dropWhile]
  · exact fun c hc => List.mem_takeWhile_imp hc
  · exact fun c hc => List.mem_rtakeWhile_imp hc
  · intro c hc
    obtain ⟨back, hback⟩ : s.trim <+: s.dropWhile isBlank := htrim ▸ List.rdropWhile_prefix _ _
    have hhead : (s.dropWhile isBlank).head? = some c := by
      rw [← hback, List.head?_append_of_ne_nil _ (List.ne_nil_of_mem (List.mem_of_mem_head? hc))]
      exact hc
    have hfirst := List.head?_dropWhile_not isBlank s
    rwa [hhead] at hfirst
  · intro c hc
    have hne : (s.dropWhile isBlank).rdropWhile isBlank ≠ [] := List.ne_nil_of_mem (List.mem_of_mem_getLast? hc)
    have hlast := List.rdropWhile_last_not isBlank _ hne
    rw [htrim, List.getLast?_eq_some_getLast hne] at hc
    cases hc
    simpa using hlast

/-- `t` is `s` without the blanks around it and without one plus sign. -/
inductive Stripped (s : Bytes) : Bytes → Prop
  | signed {t : Bytes} : Trimmed s (43 :: t) → Stripped s t
  | bare {t : Bytes} : Trimmed s t → t.head? ≠ some 43 → Stripped s t

theorem stripped_iff {s t : Bytes} : Stripped s t ↔ t = Number.body s := by
  constructor
  · intro h
    cases h with
    | signed htrim =>
      rw [Number.body, htrim.trim_eq]
      rfl
    | bare htrim hplus =>
      rw [Number.body, htrim.trim_eq]
      split
      · exact absurd rfl hplus
      · rfl
  · rintro rfl
    have htrim := trimmed_trim s
    unfold Number.body
    split
    · rename_i rest hrest
      exact .signed (hrest ▸ htrim)
    · rename_i hplus
      refine .bare htrim fun hhead => ?_
      obtain ⟨rest, hrest⟩ := List.head?_eq_some_iff.mp hhead
      exact hplus rest hrest

/-! ## Numerals -/

/-- The number that a run of digits stands for, by their places. -/
def placeValue (digits : Bytes) : Nat :=
  Nat.ofDigits 10 (digits.reverse.map fun d => d.toNat - 48)

/-- A run of digits, perhaps with a minus sign in front, and its number. -/
inductive Numeral : Bytes → Int → Prop
  | plain {digits : Bytes} : digits ≠ [] → (∀ d ∈ digits, isDigit d = true) → Numeral digits (placeValue digits)
  | negative {digits : Bytes} : digits ≠ [] → (∀ d ∈ digits, isDigit d = true) →
      Numeral (45 :: digits) (-(placeValue digits : Int))

/-- The longest numeral that the text starts with. -/
structure LongestNumeral (t p : Bytes) (n : Int) : Prop where
  starts : p <+: t
  numeral : Numeral p n
  longest : ∀ q m, q <+: t → Numeral q m → q.length ≤ p.length

theorem placeValue_snoc (digits : Bytes) (d : UInt8) :
    placeValue (digits ++ [d]) = 10 * placeValue digits + (d.toNat - 48) := by
  simp [placeValue, Nat.ofDigits_cons, Nat.add_comm]

theorem ofDigits_eq_placeValue (digits : Bytes) : Number.ofDigits digits = placeValue digits := by
  induction digits using List.reverseRecOn with
  | nil => rfl
  | append_singleton digits d ih =>
    rw [placeValue_snoc, ← ih, Number.ofDigits, Number.ofDigits, List.foldl_append]
    rfl

/-- A value is in the range of the numbers of 64 bits, one of them for the sign. -/
def Int64Range (n : Int) : Prop :=
  -9223372036854775808 ≤ n ∧ n < 9223372036854775808

theorem fitsInt64_iff (n : Int) : Number.fitsInt64 n = true ↔ Int64Range n := by
  simp only [Number.fitsInt64, Bool.and_eq_true, decide_eq_true_eq, Int64Range]
  omega

/-! ## The numeral in front -/

def minus (negative : Bool) : Bytes :=
  if negative then [45] else []

/-- The digits in front, behind the minus sign if there is one. -/
def leadingDigits (t : Bytes) : Bytes :=
  (Number.sign t).2.takeWhile isDigit

def leadingValue (t : Bytes) : Int :=
  Number.signed (Number.sign t).1 (placeValue (leadingDigits t))

theorem sign_append (t : Bytes) : minus (Number.sign t).1 ++ (Number.sign t).2 = t := by
  unfold Number.sign
  split <;> rfl

theorem isDigit_leadingDigits {t : Bytes} : ∀ d ∈ leadingDigits t, isDigit d = true :=
  fun _ hd => List.mem_takeWhile_imp hd

theorem numeral_minus (negative : Bool) {digits : Bytes} (hne : digits ≠ []) (hdigits : ∀ d ∈ digits, isDigit d = true) :
    Numeral (minus negative ++ digits) (Number.signed negative (placeValue digits)) := by
  cases negative with
  | false => exact .plain hne hdigits
  | true => exact .negative hne hdigits

/-- A numeral that a text starts with has the sign of the text, since no digit is a minus sign. -/
theorem Numeral.in_front {t p : Bytes} {n : Int} (h : Numeral p n) (hp : p <+: t) :
    ∃ digits, digits ≠ [] ∧ (∀ d ∈ digits, isDigit d = true) ∧ digits <+: (Number.sign t).2 ∧
      p = minus (Number.sign t).1 ++ digits ∧ n = Number.signed (Number.sign t).1 (placeValue digits) := by
  obtain ⟨tail, rfl⟩ := hp
  cases h with
  | plain hne hdigits =>
    have hsign : Number.sign (p ++ tail) = (false, p ++ tail) := by
      unfold Number.sign
      split
      · rename_i rest hrest
        cases p with
        | nil => exact absurd rfl hne
        | cons d p =>
          cases hrest
          exact absurd (hdigits 45 List.mem_cons_self) (by decide)
      · rfl
    rw [hsign]
    exact ⟨p, hne, hdigits, List.prefix_append _ _, rfl, rfl⟩
  | @negative digits hne hdigits => exact ⟨digits, hne, hdigits, List.prefix_append _ _, rfl, rfl⟩

theorem prefix_takeWhile {digits rest : Bytes} (hdigits : ∀ d ∈ digits, isDigit d = true) (h : digits <+: rest) :
    digits <+: rest.takeWhile isDigit := by
  obtain ⟨tail, rfl⟩ := h
  rw [List.takeWhile_append_of_pos hdigits]
  exact List.prefix_append _ _

theorem longestNumeral_iff {t p : Bytes} {n : Int} :
    LongestNumeral t p n ↔
      leadingDigits t ≠ [] ∧ p = minus (Number.sign t).1 ++ leadingDigits t ∧ n = leadingValue t := by
  have hstarts : minus (Number.sign t).1 ++ leadingDigits t <+: t := by
    conv_rhs => rw [← sign_append t]
    exact (List.prefix_append_right_inj _).mpr (List.takeWhile_prefix _)
  constructor
  · intro h
    obtain ⟨digits, hne, hdigits, hfront, hp, hn⟩ := h.numeral.in_front h.starts
    have hshort : digits <+: leadingDigits t := prefix_takeWhile hdigits hfront
    have hall : leadingDigits t ≠ [] := fun hnil => hne (List.prefix_nil.mp (hnil ▸ hshort))
    -- The digits in front are a numeral themselves, so a longest one leaves none of them out.
    have hlong := h.longest _ _ hstarts (numeral_minus _ hall isDigit_leadingDigits)
    rw [hp, List.length_append, List.length_append] at hlong
    have hdigits : digits = leadingDigits t := hshort.eq_of_length_le (by omega)
    rw [hdigits] at hp hn
    exact ⟨hall, hp, hn⟩
  · rintro ⟨hall, rfl, rfl⟩
    refine ⟨hstarts, numeral_minus _ hall isDigit_leadingDigits, fun q m hq hnumeral => ?_⟩
    obtain ⟨digits, _, hdigits, hfront, rfl, _⟩ := hnumeral.in_front hq
    have hshort : digits <+: leadingDigits t := prefix_takeWhile hdigits hfront
    have hlen := hshort.length_le
    rw [List.length_append, List.length_append]
    omega

theorem numeral_iff {t : Bytes} {n : Int} :
    Numeral t n ↔ leadingDigits t ≠ [] ∧ (Number.sign t).2.dropWhile isDigit = [] ∧ n = leadingValue t := by
  constructor
  · intro h
    obtain ⟨digits, hne, hdigits, -, ht, hn⟩ := h.in_front List.prefix_rfl
    have hrest : (Number.sign t).2 = digits := List.append_cancel_left ((sign_append t).trans ht)
    have hall : leadingDigits t = digits := by
      rw [leadingDigits, hrest]
      exact List.takeWhile_eq_self_iff.mpr hdigits
    refine ⟨hall ▸ hne, ?_, by rw [leadingValue, hall, hn]⟩
    rw [hrest]
    exact List.dropWhile_eq_nil_iff.mpr hdigits
  · rintro ⟨hall, hrest, rfl⟩
    have hwhole : leadingDigits t = (Number.sign t).2 := by
      have happend : leadingDigits t ++ (Number.sign t).2.dropWhile isDigit = (Number.sign t).2 :=
        List.takeWhile_append_dropWhile
      rwa [hrest, List.append_nil] at happend
    have hnumeral := numeral_minus (Number.sign t).1 hall isDigit_leadingDigits
    rwa [hwhole, sign_append, ← hwhole] at hnumeral

/-! ## Reading -/

variable {s : Bytes}

theorem readInt_eq (s : Bytes) :
    Number.readInt s =
      if leadingDigits (Number.body s) = [] then .error .notANumber
      else if Number.fitsInt64 (leadingValue (Number.body s)) = false then .error .outOfRange
      else if (Number.sign (Number.body s)).2.dropWhile isDigit = [] then .ok (leadingValue (Number.body s))
      else .error .notANumber := by
  rw [Number.readInt]
  simp only [ofDigits_eq_placeValue, List.isEmpty_iff, Bool.not_eq_true']
  rfl

theorem readInt_eq_ok_iff {n : Int} : Number.readInt s = .ok n ↔ Numeral (Number.body s) n ∧ Int64Range n := by
  rw [readInt_eq, numeral_iff, ← fitsInt64_iff]
  grind

theorem readInt_eq_outOfRange_iff :
    Number.readInt s = .error .outOfRange ↔ ∃ p n, LongestNumeral (Number.body s) p n ∧ ¬ Int64Range n := by
  simp only [readInt_eq, longestNumeral_iff, ← fitsInt64_iff]
  grind

theorem readInt_eq_notANumber_iff :
    Number.readInt s = .error .notANumber ↔
      (¬ ∃ n, Numeral (Number.body s) n ∧ Int64Range n) ∧
        ¬ ∃ p n, LongestNumeral (Number.body s) p n ∧ ¬ Int64Range n := by
  simp only [← readInt_eq_ok_iff, ← readInt_eq_outOfRange_iff]
  cases Number.readInt s with
  | ok n => simp
  | error e => cases e <;> simp

/-! ## Decimal texts -/

theorem digitChar_byte {d : Nat} (h : d < 10) : UInt8.ofNat (Nat.digitChar d).toNat = UInt8.ofNat (48 + d) := by
  rw [Nat.toNat_digitChar_of_lt_ten h]

/-- The last digit comes off the end. -/
theorem decimal_eq (n : Nat) :
    decimal n = (if n < 10 then [] else decimal (n / 10)) ++ [UInt8.ofNat (48 + n % 10)] := by
  unfold decimal
  rw [Nat.toDigits_eq_if (by omega)]
  split
  case isTrue h => simp [digitChar_byte h, Nat.mod_eq_of_lt h]
  case isFalse => simp [digitChar_byte (Nat.mod_lt n (by omega))]

theorem lastDigit_toNat {d : Nat} (h : d < 10) : (UInt8.ofNat (48 + d)).toNat = 48 + d := by
  rw [UInt8.toNat_ofNat']
  omega

theorem isDigit_lastDigit {d : Nat} (h : d < 10) : isDigit (UInt8.ofNat (48 + d)) = true := by
  simp only [isDigit, Bool.and_eq_true, decide_eq_true_eq, UInt8.le_iff_toNat_le, lastDigit_toNat h]
  exact ⟨Nat.le_add_right 48 d, Nat.add_le_add_left (Nat.le_of_lt_succ h) 48⟩

theorem decimal_ne_nil (n : Nat) : decimal n ≠ [] := by
  rw [decimal_eq]
  exact List.append_ne_nil_of_right_ne_nil _ (List.cons_ne_nil _ _)

theorem isDigit_decimal (n : Nat) : ∀ d ∈ decimal n, isDigit d = true := by
  induction n using Nat.strongRecOn with
  | _ n ih =>
    rw [decimal_eq, List.forall_mem_append]
    have hlast : isDigit (UInt8.ofNat (48 + n % 10)) = true := isDigit_lastDigit (Nat.mod_lt n (by omega))
    refine ⟨?_, by simpa using hlast⟩
    split
    case isTrue => exact List.forall_mem_nil _
    case isFalse h => exact ih (n / 10) (by omega)

theorem placeValue_decimal (n : Nat) : placeValue (decimal n) = n := by
  induction n using Nat.strongRecOn with
  | _ n ih =>
    rw [decimal_eq, placeValue_snoc, lastDigit_toNat (Nat.mod_lt n (by omega))]
    split
    case isTrue h =>
      have hnil : placeValue [] = 0 := rfl
      omega
    case isFalse h =>
      rw [ih (n / 10) (by omega)]
      omega

theorem numeral_signedDecimal (n : Int) : Numeral (signedDecimal n) n := by
  cases n with
  | ofNat n =>
    have hplain := Numeral.plain (decimal_ne_nil n) (isDigit_decimal n)
    rwa [placeValue_decimal] at hplain
  | negSucc n =>
    have hnegative := Numeral.negative (decimal_ne_nil (n + 1)) (isDigit_decimal (n + 1))
    rwa [placeValue_decimal] at hnegative

/-- The bytes of a numeral are neither blanks nor plus signs. -/
theorem Numeral.bytes {t : Bytes} {n : Int} (h : Numeral t n) : ∀ c ∈ t, isBlank c = false ∧ c ≠ 43 := by
  have hdigit : ∀ c, isDigit c = true → isBlank c = false ∧ c ≠ 43 := by
    intro c hc
    simp only [isDigit, isBlank, space, tab, Bool.and_eq_true, decide_eq_true_eq] at hc ⊢
    grind
  cases h with
  | plain _ hdigits => exact fun c hc => hdigit c (hdigits c hc)
  | negative _ hdigits => exact List.forall_mem_cons.mpr ⟨by decide, fun c hc => hdigit c (hdigits c hc)⟩

theorem Numeral.trimmed {front back t : Bytes} {n : Int} (h : Numeral t n) (hfront : ∀ c ∈ front, isBlank c = true)
    (hback : ∀ c ∈ back, isBlank c = true) : Trimmed (front ++ t ++ back) t where
  around := ⟨front, back, rfl, hfront, hback⟩
  first c hc := (h.bytes c (List.mem_of_mem_head? hc)).1
  last c hc := (h.bytes c (List.mem_of_mem_getLast? hc)).1

theorem Numeral.trimmed_plus {front back t : Bytes} {n : Int} (h : Numeral t n) (hfront : ∀ c ∈ front, isBlank c = true)
    (hback : ∀ c ∈ back, isBlank c = true) : Trimmed (front ++ (43 :: t) ++ back) (43 :: t) where
  around := ⟨front, back, rfl, hfront, hback⟩
  first c hc := by
    cases hc
    rfl
  last c hc := by
    obtain rfl | hmem := List.mem_cons.mp (List.mem_of_mem_getLast? hc)
    · rfl
    · exact (h.bytes c hmem).1

/-! ## What a text is read as -/

/-- What reading `s` as an integer gives, where `t` is what is left of it to be read. -/
structure ReadsExactly (s t : Bytes) (outcome : Except Bytes Int) : Prop where
  integer : ∀ n, outcome = .ok n ↔ Numeral t n ∧ Int64Range n
  outOfRange : outcome = .error (s.quoted ++ ascii " is out of range") ↔
    ∃ p n, LongestNumeral t p n ∧ ¬ Int64Range n
  notANumber : outcome = .error (s.quoted ++ ascii " is not a number") ↔
    (¬ ∃ n, Numeral t n ∧ Int64Range n) ∧ ¬ ∃ p n, LongestNumeral t p n ∧ ¬ Int64Range n

theorem message_injective (s : Bytes) : Function.Injective (NumberError.message s) := by
  intro e e' h
  cases e <;> cases e'
  · rfl
  · exact absurd (List.append_cancel_left h) (by decide)
  · exact absurd (List.append_cancel_left h) (by decide)
  · rfl

theorem mapError_eq_ok_iff {ε ε' α : Type} {f : ε → ε'} {r : Except ε α} {a : α} : r.mapError f = .ok a ↔ r = .ok a := by
  cases r <;> simp [Except.mapError]

theorem mapError_eq_error_iff {ε ε' α : Type} {f : ε → ε'} (hf : Function.Injective f) {r : Except ε α} {e : ε} :
    r.mapError f = .error (f e) ↔ r = .error e := by
  cases r <;> simp [Except.mapError, hf.eq_iff]

theorem readsExactly (s : Bytes) :
    ReadsExactly s (Number.body s) ((Number.readInt s).mapError (NumberError.message s)) where
  integer _ := mapError_eq_ok_iff.trans readInt_eq_ok_iff
  outOfRange := (mapError_eq_error_iff (message_injective s)).trans readInt_eq_outOfRange_iff
  notANumber := (mapError_eq_error_iff (message_injective s)).trans readInt_eq_notANumber_iff

/-- A text is read as an integer exactly if it is a numeral with a number of 64 bits, the blanks around it and one plus
    sign left out; that number is what it is read as. It is out of range exactly if the number of the longest numeral
    in front has more bits, and otherwise not a number. So every integer of 64 bits is read back from its decimal text,
    with any blanks around it, and also with a plus sign in front, be the integer negative or not. -/
theorem readInt_exact :
    (∀ s, ∃ t, (∀ u, Stripped s u ↔ u = t) ∧
      ReadsExactly s t ((Number.readInt s).mapError (NumberError.message s))) ∧
    ∀ n front back, Int64Range n → (∀ c ∈ front, isBlank c = true) → (∀ c ∈ back, isBlank c = true) →
      Number.readInt (front ++ signedDecimal n ++ back) = .ok n ∧
      Number.readInt (front ++ (ascii "+" ++ signedDecimal n) ++ back) = .ok n := by
  refine ⟨fun s => ⟨Number.body s, fun _ => stripped_iff, readsExactly s⟩, ?_⟩
  intro n front back hrange hfront hback
  have hnumeral := numeral_signedDecimal n
  constructor
  · have hbare : Stripped (front ++ signedDecimal n ++ back) (signedDecimal n) :=
      .bare (hnumeral.trimmed hfront hback) fun hhead => (hnumeral.bytes 43 (List.mem_of_mem_head? hhead)).2 rfl
    rw [readInt_eq_ok_iff, ← stripped_iff.mp hbare]
    exact ⟨hnumeral, hrange⟩
  · have hsigned : Stripped (front ++ (ascii "+" ++ signedDecimal n) ++ back) (signedDecimal n) :=
      .signed (hnumeral.trimmed_plus hfront hback)
    rw [readInt_eq_ok_iff, ← stripped_iff.mp hsigned]
    exact ⟨hnumeral, hrange⟩

theorem readInt_exact_smallest :
    Number.readInt (ascii "\n-9223372036854775808 ") = .ok (-9223372036854775808) ∧
      Number.readInt (ascii "\n+-9223372036854775808 ") = .ok (-9223372036854775808) := by
  have hbare : [newline] ++ signedDecimal (-9223372036854775808) ++ [space] = ascii "\n-9223372036854775808 " := by rfl
  have hplus : [newline] ++ (ascii "+" ++ signedDecimal (-9223372036854775808)) ++ [space] =
      ascii "\n+-9223372036854775808 " := by rfl
  rw [← hbare, ← hplus]
  exact readInt_exact.2 (-9223372036854775808) [newline] [space] ⟨by decide, by decide⟩
    (List.forall_mem_singleton.mpr rfl) (List.forall_mem_singleton.mpr rfl)

/-- What stands behind a number counts only if the number has 64 bits. -/
example : Number.readInt (ascii "9223372036854775808 s") = .error .outOfRange := by rfl

example : Number.readInt (ascii "9223372036854775807 s") = .error .notANumber := by rfl

end CommandGrammar
