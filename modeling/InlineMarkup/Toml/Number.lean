import InlineMarkup.Toml.Text

/-! The numbers of TOML. -/

namespace InlineMarkup.Toml

/-- The digits of a number whose digits may be parted by single underscores. -/
def groupedDigits? (digit? : Char → Option Nat) (text : List Char) : Option (List Nat) :=
  go text false []
where
  /-- Continues after the digits `seen`; `parted` tells whether a digit stands right before. -/
  go : List Char → Bool → List Nat → Option (List Nat)
    | [], parted, seen => if parted then some seen.reverse else none
    | c :: rest, parted, seen =>
      if c = '_' then if parted then go rest false seen else none
      else (digit? c).bind fun digit => go rest true (digit :: seen)

def ofDigits (base : Nat) (digits : List Nat) : Nat :=
  digits.foldl (fun n digit => base * n + digit) 0

/-- A digit of a base up to sixteen. -/
def digit? (base : Nat) (c : Char) : Option Nat := (hexDigit? c).filter (· < base)

/-- The digits of a decimal number, which starts with zero only if it is zero. -/
def decimalDigits? (text : List Char) : Option (List Nat) :=
  match groupedDigits? (digit? 10) text with
  | some [digit] => some [digit]
  | some (0 :: _) => none
  | digits => digits

/-- The sign of a number and what follows it. -/
def splitSign : List Char → Bool × List Char
  | '-' :: rest => (true, rest)
  | '+' :: rest => (false, rest)
  | rest => (false, rest)

/-- The integers that are taken: those of 128 bits, with a sign or without. -/
def inIntegerRange (n : Int) : Bool := decide (-Int.pow 2 127 ≤ n) && decide (n < Int.pow 2 128)

/-- An integer, in base ten or with a mark of another base. -/
def integer? (text : List Char) : Option Int :=
  Option.filter inIntegerRange <|
    match text with
    | '0' :: 'x' :: rest => (groupedDigits? (digit? 16) rest).map fun ds => (ofDigits 16 ds : Int)
    | '0' :: 'o' :: rest => (groupedDigits? (digit? 8) rest).map fun ds => (ofDigits 8 ds : Int)
    | '0' :: 'b' :: rest => (groupedDigits? (digit? 2) rest).map fun ds => (ofDigits 2 ds : Int)
    | text =>
      let (negative, rest) := splitSign text
      (decimalDigits? rest).map fun ds =>
        if negative then -(ofDigits 10 ds : Int) else (ofDigits 10 ds : Int)

/-- Whether `digits` times ten to the `exponent` is nearer to 2 ^ 1024 than to any number below
that has 53 binary digits, and so beyond the floats of 64 bits. -/
def isBeyondFloat (digits : List Nat) (exponent : Int) : Bool :=
  let digits := digits.dropWhile (· == 0)
  let order := digits.length + exponent
  let limit := Nat.pow 2 1024 - Nat.pow 2 970
  if digits.isEmpty || order < 300 then false
  else if 320 < order then true
  else if 0 ≤ exponent then decide (limit ≤ ofDigits 10 digits * Nat.pow 10 exponent.toNat)
  else decide (limit * Nat.pow 10 (-exponent).toNat ≤ ofDigits 10 digits)

/-- The exponent of a float, with its mark, or nothing at all. -/
def exponent? : List Char → Option Int
  | [] => some 0
  | c :: rest => do
    guard (c == 'e' || c == 'E')
    let (negative, rest) := splitSign rest
    let digits ← groupedDigits? (digit? 10) rest
    return if negative then -(ofDigits 10 digits : Int) else (ofDigits 10 digits : Int)

/-- The digits after the point, with the point, or nothing at all. -/
def fraction? : List Char → Option (List Nat)
  | [] => some []
  | '.' :: rest => groupedDigits? (digit? 10) rest
  | _ => none

/-- Whether `text` is a float of 64 bits: a decimal number with a fraction or an exponent or
both, an infinity or no number. -/
def isFloat (text : List Char) : Bool :=
  let (_, unsigned) := splitSign text
  if unsigned = "inf".toList ∨ unsigned = "nan".toList then true
  else
    let (mantissa, exponentPart) := unsigned.span fun c => c != 'e' && c != 'E'
    let (whole, fractionPart) := mantissa.span (· != '.')
    match decimalDigits? whole, fraction? fractionPart, exponent? exponentPart with
    | some whole, some fraction, some exponent =>
      !(fractionPart.isEmpty && exponentPart.isEmpty) &&
        !isBeyondFloat (whole ++ fraction) (exponent - fraction.length)
    | _, _, _ => false

end InlineMarkup.Toml
