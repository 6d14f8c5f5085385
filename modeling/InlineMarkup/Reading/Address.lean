import InlineMarkup.Reading.Basic
import InlineMarkup.Unicode.WhiteSpace

/-! Addresses: the one that closes a link or image, and the one that stands alone. -/

namespace InlineMarkup.Reading

/-- The scalar values before the first `)` of `address` that starts within `window` bytes. -/
def parenWithin? (window : Nat) (address : List Char) : Option Nat :=
  go window address 0
where
  /-- Continues after `passed` scalar values. -/
  go : Nat → List Char → Nat → Option Nat
    | 0, _, _ => none
    | _ + 1, [], _ => none
    | window + 1, c :: address, passed =>
      if c = ')' then some passed else go (window + 1 - c.utf8Size) address (passed + 1)

/-- What follows `](` at byte `index`, given the place of the `)` that ends the address. -/
def addressTo (index : Nat) (rest : List Char) : Option Nat → Reading
  | none => degraded 2 <| .unexpected .address index rest "`)` closing the address" none
      "close the link address with `)`"
  | some 0 => ⟨.address, 3, some <| .before .address .malformedLink (index + 1) (rest.drop 1)
      "link address is empty" "put the target between the parentheses"⟩
  | some len => clean .address (len + 3)

/-- A closing bracket needs an address in parentheses. `closer?` finds the `)` in the text after
the opening parenthesis. -/
def closeBracketWith (closer? : List Char → Option Nat) (index : Nat) (rest : List Char) :
    Reading :=
  match rest with
  | _ :: '(' :: address => addressTo index rest (closer? address)
  | _ :: c :: _ => degraded 1 <| .unexpected .address index rest "`(` after `]`" (some c)
      "follow the link text with `(url)` or escape it as `\\]`"
  | _ => degraded 1 <| .unexpected .address index rest "`(` after `]`" none none

/-- An address ends at the first `)`. -/
def closeBracket : Nat → List Char → Reading :=
  closeBracketWith (·.findIdx? (· == ')'))

/-- An address ends at the first `)`, which is not looked for after the byte `lastParen`. Where
that is the last `)` of the text, an address that never ends is known at once. -/
def closeBracketBefore (lastParen : Option Nat) (index : Nat) (rest : List Char) : Reading :=
  closeBracketWith (parenWithin? (lastParen.elim 0 (· + 1 - (index + 2)))) index rest

/-- The address inside the parentheses of an address token. -/
def addressOf : List Char → List Char
  | ']' :: '(' :: rest => if rest.getLast? = some ')' then rest.dropLast else []
  | _ => []

/-- Whether a scalar value continues an address that stands alone. -/
def isUrlChar (c : Char) : Bool :=
  !Unicode.isWhiteSpace c && !(['<', '>', '[', ']', '(', ')'].contains c)

/-- The scheme that `rest` starts with. -/
def scheme? (rest : List Char) : Option (List Char) :=
  ["http://".toList, "https://".toList].find? (·.isPrefixOf rest)

/-- The length of the address that `rest` starts with: a scheme and at least one more scalar
value. -/
def bareUrl? (rest : List Char) : Option Nat := do
  let scheme ← scheme? rest
  let target := (rest.drop scheme.length).takeWhile isUrlChar
  if target.isEmpty then none else some (scheme.length + target.length)

end InlineMarkup.Reading
