import InlineMarkup.Toml.Number

/-! The dates and times of TOML. -/

namespace InlineMarkup.Toml

/-- A number of exactly `count` digits and what follows it. -/
def fixedDigits? (count : Nat) (text : List Char) : Option (Nat × List Char) := do
  let digits ← (text.take count).mapM (digit? 10)
  guard (digits.length = count)
  return (ofDigits 10 digits, text.drop count)

/-- What follows `c`. -/
def after? (c : Char) : List Char → Option (List Char)
  | d :: rest => if d = c then some rest else none
  | [] => none

def isLeapYear (year : Nat) : Bool := year % 4 == 0 && (year % 100 != 0 || year % 400 == 0)

def daysIn (year month : Nat) : Nat :=
  if month = 2 then if isLeapYear year then 29 else 28
  else if month ∈ [4, 6, 9, 11] then 30
  else 31

/-- Reads a date and gives what follows it. -/
def date? (text : List Char) : Option (List Char) := do
  let (year, rest) ← fixedDigits? 4 text
  let (month, rest) ← fixedDigits? 2 (← after? '-' rest)
  let (day, rest) ← fixedDigits? 2 (← after? '-' rest)
  guard (1 ≤ month ∧ month ≤ 12 ∧ 1 ≤ day ∧ day ≤ daysIn year month)
  return rest

/-- Reads the seconds of a time with their fraction, which may both be absent. -/
def seconds? (text : List Char) : Option (List Char) :=
  match text with
  | ':' :: rest => do
    let (second, rest) ← fixedDigits? 2 rest
    guard (second ≤ 60)
    match rest with
    | '.' :: rest =>
      let digits := rest.takeWhile (·.isDigit)
      if digits.isEmpty then none else some (rest.drop digits.length)
    | rest => some rest
  | rest => some rest

/-- Reads hours and minutes. -/
def clock? (text : List Char) : Option (List Char) := do
  let (hour, rest) ← fixedDigits? 2 text
  let (minute, rest) ← fixedDigits? 2 (← after? ':' rest)
  guard (hour ≤ 23 ∧ minute ≤ 59)
  return rest

def time? (text : List Char) : Option (List Char) := (clock? text).bind seconds?

/-- Reads the distance from the time of Greenwich, which may be absent. -/
def offset? : List Char → Option (List Char)
  | [] => some []
  | c :: rest =>
    if c = 'Z' ∨ c = 'z' then some rest
    else if c = '+' ∨ c = '-' then clock? rest
    else none

/-- Whether `text` is a date, a time or both. -/
def isMoment (text : List Char) : Bool :=
  match date? text with
  | some [] => true
  | some (c :: rest) =>
    (c == 'T' || c == 't' || c == ' ') && ((time? rest).bind offset?) == some []
  | none => time? text == some []

end InlineMarkup.Toml
