/-
  CommandGrammar.Bytes — the texts of grammars and calls.

  A text is a list of bytes: offsets, lengths and comparisons count bytes, and no
  encoding is assumed. Only ASCII letters have a case, and only the six ASCII
  blanks separate words.
-/

namespace CommandGrammar

abbrev Bytes := List UInt8

/-- The bytes of an ASCII text. -/
def ascii (s : String) : Bytes :=
  s.toList.map fun c => UInt8.ofNat c.toNat

def space : UInt8 := 32
def tab : UInt8 := 9
def newline : UInt8 := 10

/-! ## Classes of bytes -/

/-- Space, tab, newline, vertical tab, form feed or carriage return. -/
def isBlank (c : UInt8) : Bool :=
  c == space || (tab ≤ c && c ≤ 13)

def isDigit (c : UInt8) : Bool :=
  48 ≤ c && c ≤ 57

def isLetter (c : UInt8) : Bool :=
  (65 ≤ c && c ≤ 90) || (97 ≤ c && c ≤ 122)

/-- Folds an ASCII capital; every other byte stands for itself. -/
def lowerByte (c : UInt8) : UInt8 :=
  if 65 ≤ c && c ≤ 90 then c + 32 else c

/-! ## Texts -/

namespace Bytes

def lower (s : Bytes) : Bytes :=
  s.map lowerByte

/-- Equality up to the case of ASCII letters. -/
def sameFolded (s t : Bytes) : Bool :=
  s.lower == t.lower

/-- The text without the blanks around it. -/
def trim (s : Bytes) : Bytes :=
  ((s.dropWhile isBlank).reverse.dropWhile isBlank).reverse

def quoted (s : Bytes) : Bytes :=
  ascii "'" ++ s ++ ascii "'"

/-- The bytes from `start` up to, and without, `stop`. -/
def slice (s : Bytes) (start stop : Nat) : Bytes :=
  (s.drop start).take (stop - start)

/-- The text up to, and without, its first zero byte. -/
def beforeZero (s : Bytes) : Bytes :=
  s.takeWhile (· != 0)

/-- The choices in words. One that is first and empty leaves no trace. -/
def orList (choices : List Bytes) : Bytes :=
  choices.foldl (fun out c => if out.isEmpty then c else out ++ ascii " or " ++ c) []

/-- The pieces between the occurrences of `sep`: always at least one. -/
def splitAt (sep : UInt8) : Bytes → List Bytes
  | [] => [[]]
  | c :: cs =>
    match splitAt sep cs with
    | [] => [[c]]
    | piece :: rest => if c == sep then [] :: piece :: rest else (c :: piece) :: rest

end Bytes

/-- The decimal text of a number. -/
def decimal (n : Nat) : Bytes :=
  (Nat.toDigits 10 n).map fun c => UInt8.ofNat c.toNat

def signedDecimal : Int → Bytes
  | .ofNat n => decimal n
  | .negSucc n => ascii "-" ++ decimal (n + 1)

end CommandGrammar
