/-! The text of a TOML document: its line breaks, blanks and comments, and its four kinds of
strings. -/

namespace InlineMarkup.Toml

/-- Whether a scalar value may stand in a document at all. -/
def isPermitted (c : Char) : Bool :=
  c == '\t' || c == '\n' || (decide (0x20 ≤ c.toNat) && c.toNat != 0x7F)

/-- Continues after the characters `seen`, last one first. -/
def normalizeFrom (seen : List Char) : List Char → Option (List Char)
  | [] => some seen.reverse
  | '\r' :: '\n' :: rest => normalizeFrom ('\n' :: seen) rest
  | c :: rest => if isPermitted c then normalizeFrom (c :: seen) rest else none

/-- A document without its byte order mark and with one scalar value for each line break. There
is none if it holds a control character or half a line break, which may stand nowhere. -/
def normalize? : List Char → Option (List Char)
  | '\ufeff' :: rest => normalizeFrom [] rest
  | rest => normalizeFrom [] rest

def isBlank (c : Char) : Bool := c == ' ' || c == '\t'

def skipBlanks (rest : List Char) : List Char := rest.dropWhile isBlank

/-- Skips a comment, if one stands here. -/
def skipComment : List Char → List Char
  | '#' :: rest => rest.dropWhile (· != '\n')
  | rest => rest

/-- Skips blanks and a comment up to the end of the line, where nothing else may stand. -/
def endLine? (rest : List Char) : Option (List Char) :=
  match skipComment (skipBlanks rest) with
  | [] => some []
  | '\n' :: rest => some rest
  | _ => none

/-- Skips blanks, comments and line breaks, `fuel` lines at most. -/
def skipLines : Nat → List Char → List Char
  | 0, rest => rest
  | fuel + 1, rest =>
    match skipComment (skipBlanks rest) with
    | '\n' :: rest => skipLines fuel rest
    | rest => rest

/-- Skips blanks, comments and line breaks. -/
def skipSpace (rest : List Char) : List Char := skipLines (rest.length + 1) rest

def hexDigit? (c : Char) : Option Nat :=
  if c.isDigit then some (c.toNat - '0'.toNat)
  else if 'a' ≤ c ∧ c ≤ 'f' then some (c.toNat - 'a'.toNat + 10)
  else if 'A' ≤ c ∧ c ≤ 'F' then some (c.toNat - 'A'.toNat + 10)
  else none

/-- The scalar value whose number the first `count` characters give in base 16. -/
def hexScalar? (count : Nat) (rest : List Char) : Option Char := do
  let digits ← (rest.take count).mapM hexDigit?
  let n := digits.foldl (fun n digit => 16 * n + digit) 0
  if digits.length = count ∧ n.isValidChar then some (Char.ofNat n) else none

/-- The scalar value that the characters after a backslash stand for, and their number. -/
def escaped? (rest : List Char) : Option (Char × Nat) :=
  match rest.head? with
  | some 'b' => some ('\x08', 1)
  | some 't' => some ('\t', 1)
  | some 'n' => some ('\n', 1)
  | some 'f' => some ('\x0c', 1)
  | some 'r' => some ('\r', 1)
  | some 'e' => some ('\x1b', 1)
  | some '"' => some ('"', 1)
  | some '\\' => some ('\\', 1)
  | some 'x' => (hexScalar? 2 (rest.drop 1)).map (·, 3)
  | some 'u' => (hexScalar? 4 (rest.drop 1)).map (·, 5)
  | some 'U' => (hexScalar? 8 (rest.drop 1)).map (·, 9)
  | _ => none

/-- The rest of a string in double quotes, after the characters `seen`, and what follows it. -/
def basicString? (seen : List Char) : List Char → Option (List Char × List Char)
  | [] => none
  | c :: rest =>
    if c = '"' then some (seen.reverse, rest)
    else if c = '\n' then none
    else if c = '\\' then
      match escaped? rest with
      | some (c, count) => basicString? (c :: seen) (rest.drop count)
      | none => none
    else basicString? (c :: seen) rest
termination_by text => text.length
decreasing_by all_goals simp only [List.length_drop, List.length_cons]; omega

/-- The rest of a string in single quotes, and what follows it. -/
def literalString? (rest : List Char) : Option (List Char × List Char) :=
  match rest.span (fun c => c != '\'' && c != '\n') with
  | (content, '\'' :: rest) => some (content, rest)
  | _ => none

/-- The end of a string between tripled quotes: up to two quotes before the closing three
belong to the string. -/
def closeTripled? (quote : Char) (rest : List Char) : Option (List Char × List Char) :=
  let quotes := min 5 (rest.takeWhile (· == quote)).length
  if 3 ≤ quotes then some (List.replicate (quotes - 3) quote, rest.drop quotes) else none

/-- The number of characters that a backslash at the end of a line takes with it: all blanks and
line breaks after it. -/
def continuation? (rest : List Char) : Option Nat :=
  match skipBlanks rest with
  | '\n' :: _ => some (rest.takeWhile fun c => isBlank c || c == '\n').length
  | _ => none

/-- The rest of a string between tripled quotes, with escapes if those are double quotes. -/
def tripledString? (quote : Char) (seen : List Char) : List Char → Option (List Char × List Char)
  | [] => none
  | c :: rest =>
    match closeTripled? quote (c :: rest) with
    | some (content, after) => some (seen.reverse ++ content, after)
    | none =>
      if c = '\\' ∧ quote = '"' then
        match continuation? rest, escaped? rest with
        | some count, _ => tripledString? quote seen (rest.drop count)
        | none, some (c, count) => tripledString? quote (c :: seen) (rest.drop count)
        | none, none => none
      else tripledString? quote (c :: seen) rest
termination_by text => text.length
decreasing_by all_goals simp only [List.length_drop, List.length_cons]; omega

/-- A string of one line. -/
def lineString? : List Char → Option (List Char × List Char)
  | '"' :: rest => basicString? [] rest
  | '\'' :: rest => literalString? rest
  | _ => none

/-- A line break right after the opening quotes is not part of the string. -/
def dropLineBreak : List Char → List Char
  | '\n' :: rest => rest
  | rest => rest

/-- A string of any kind. -/
def string? : List Char → Option (List Char × List Char)
  | '"' :: '"' :: '"' :: rest => tripledString? '"' [] (dropLineBreak rest)
  | '\'' :: '\'' :: '\'' :: rest => tripledString? '\'' [] (dropLineBreak rest)
  | rest => lineString? rest

end InlineMarkup.Toml
