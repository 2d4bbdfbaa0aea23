/-
  CommandGrammar.Value.Binary64 — the binary64 number nearest to a ratio.

  The value `significand * 2^exponent` with a significand below `2^53` and an exponent
  of at least -1074 has the bits `(exponent + 1074) * 2^52 + significand`: this covers
  normal and subnormal numbers, and a significand that is rounded up to `2^53` carries
  into the exponent by itself.
-/

namespace CommandGrammar.Binary64

def powerOfTwo (n : Nat) : Nat := Nat.pow 2 n
def powerOfTen (n : Nat) : Nat := Nat.pow 10 n

/-- The quotient, rounded to the nearest integer, a half to the even one. -/
def roundDiv (a b : Nat) : Nat :=
  let q := a / b
  let r := a % b
  if b < 2 * r ∨ (2 * r = b ∧ q % 2 = 1) then q + 1 else q

/-- The ratio `num / den` divided by `2^e`, as a fraction. -/
def scale (num den : Nat) (e : Int) : Nat × Nat :=
  if 0 ≤ e then (num, den * powerOfTwo e.toNat) else (num * powerOfTwo (-e).toNat, den)

/-- The exponent at which the ratio has a significand of 53 bits, or the least one. -/
def exponent (num den : Nat) : Int :=
  let e : Int := (num.log2 : Int) - (den.log2 : Int) - 52
  let (a, b) := scale num den e
  max (-1074) (if a / b < powerOfTwo 52 then e - 1 else e)

def infinityBits : Nat := 0x7ff0000000000000
def nanBits : Nat := 0x7ff8000000000000

/-- The bits of the number nearest to `num / den`. -/
def nearestBits (num den : Nat) : Nat :=
  let e := exponent num den
  let (a, b) := scale num den e
  min infinityBits ((e + 1074).toNat * powerOfTwo 52 + roundDiv a b)

def ofBits (bits : Nat) : Float :=
  Float.ofBits (UInt64.ofNat bits)

def infinity : Float := ofBits infinityBits
def nan : Float := ofBits nanBits

/-- The bits of the number nearest to `digits * 10^tens`. The magnitude is looked at first, so that
    no power is computed for a number that is out of reach anyway. -/
def nearestBitsDecimal (digits : Nat) (tens : Int) : Nat :=
  let magnitude : Int := (Nat.toDigits 10 digits).length + tens
  if digits = 0 ∨ magnitude < -330 then 0
  else if 310 < magnitude then infinityBits
  else if 0 ≤ tens then nearestBits (digits * powerOfTen tens.toNat) 1
  else nearestBits digits (powerOfTen (-tens).toNat)

end CommandGrammar.Binary64
