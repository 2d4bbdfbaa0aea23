/-
  CommandGrammar.Value.Number — texts that stand for numbers and truth values.

  Blanks around a number and one plus sign in front of it are ignored. What follows is
  read as far as it is a number; a number that does not fit is out of range whatever
  stands behind it, and a number that fits counts only if nothing stands behind it.
-/

import CommandGrammar.Bytes
import CommandGrammar.Value.Binary64

namespace CommandGrammar

inductive NumberError where
  | notANumber
  | outOfRange
  deriving DecidableEq, Repr

def NumberError.message (text : Bytes) : NumberError → Bytes
  | .notANumber => text.quoted ++ ascii " is not a number"
  | .outOfRange => text.quoted ++ ascii " is out of range"

namespace Number

/-- The text without the blanks around it and one plus sign. -/
def body (s : Bytes) : Bytes :=
  match s.trim with
  | 43 :: rest => rest
  | t => t

/-- Whether a minus sign stands in front, and what follows. -/
def sign : Bytes → Bool × Bytes
  | 45 :: rest => (true, rest)
  | s => (false, s)

def ofDigits (digits : Bytes) : Nat :=
  digits.foldl (fun n d => 10 * n + (d.toNat - 48)) 0

def signed (negative : Bool) (n : Nat) : Int :=
  if negative then -(n : Int) else n

/-! ## Integers -/

/-- Whether the number has 64 bits, one of them for the sign. -/
def fitsInt64 (n : Int) : Bool :=
  -9223372036854775808 ≤ n && n ≤ 9223372036854775807

def readInt (s : Bytes) : Except NumberError Int :=
  let (negative, rest) := sign (body s)
  let digits := rest.takeWhile isDigit
  let n := signed negative (ofDigits digits)
  if digits.isEmpty then .error .notANumber
  else if !fitsInt64 n then .error .outOfRange
  else if (rest.dropWhile isDigit).isEmpty then .ok n
  else .error .notANumber

/-! ## Decimals -/

/-- An exponent at the front of the text, and what follows. A mark without digits is none. -/
def exponentPart (s : Bytes) : Int × Bytes :=
  match s with
  | c :: rest =>
    if lowerByte c = 101 then
      let (negative, digits) :=
        match rest with
        | 43 :: r => (false, r)
        | r => sign r
      if (digits.takeWhile isDigit).isEmpty then (0, s)
      else (signed negative (ofDigits (digits.takeWhile isDigit)), digits.dropWhile isDigit)
    else (0, s)
  | [] => (0, s)

/-- A decimal at the front of the text, as `digits * 10^tens`, and what follows. -/
def decimalPart? (s : Bytes) : Option (Nat × Int × Bytes) :=
  let whole := s.takeWhile isDigit
  let (fraction, rest) :=
    match s.dropWhile isDigit with
    | 46 :: r => (r.takeWhile isDigit, r.dropWhile isDigit)
    | r => ([], r)
  if whole.isEmpty && fraction.isEmpty then none
  else
    let (e, rest) := exponentPart rest
    some (ofDigits (whole ++ fraction), e - fraction.length, rest)

/-- Infinity and the not-a-number, in any case; the latter may carry a word in parentheses. -/
def special? (s : Bytes) : Option Float :=
  let t := s.lower
  if t == ascii "inf" || t == ascii "infinity" then some Binary64.infinity
  else if t == ascii "nan" then some Binary64.nan
  else if (ascii "nan(").isPrefixOf t then
    let word := (t.drop 4).takeWhile fun c => isLetter c || isDigit c || c == 95
    if t.drop (4 + word.length) == ascii ")" then some Binary64.nan else none
  else none

def readFloat (s : Bytes) : Except NumberError Float :=
  let (negative, rest) := sign (body s)
  let signedFloat (x : Float) : Float := if negative then -x else x
  match special? rest with
  | some x => .ok (signedFloat x)
  | none =>
    match decimalPart? rest with
    | none => .error .notANumber
    | some (digits, tens, after) =>
      let bits := Binary64.nearestBitsDecimal digits tens
      if bits = Binary64.infinityBits ∨ (bits = 0 ∧ digits ≠ 0) then .error .outOfRange
      else if after.isEmpty then .ok (signedFloat (Binary64.ofBits bits))
      else .error .notANumber

end Number

/-! ## Truth values -/

namespace Truth

def affirmative : List Bytes :=
  [ascii "y", ascii "yes", ascii "t", ascii "true", ascii "do", ascii "ok", ascii "sure", ascii "alright"]

def negative : List Bytes :=
  [ascii "n", ascii "no", ascii "f", ascii "false", ascii "dont"]

/-- A number is true unless it is zero; of words, those above count, in any case. -/
def read? (s : Bytes) : Option Bool :=
  match Number.readFloat s.trim with
  | .ok x => some (x != 0)
  | .error _ =>
    let word := s.trim.lower
    if affirmative.contains word then some true
    else if negative.contains word then some false
    else none

end Truth

end CommandGrammar
