import InlineMarkup.Reading.Address
import InlineMarkup.Reading.Code
import InlineMarkup.Reading.Delimiter
import InlineMarkup.Reading.Escape

/-! The rules by name: which one a trigger calls for, and how one is applied at a byte of a
text. -/

namespace InlineMarkup

inductive Rule
  | star | tilde | underscore | code | escape | bang | openBracket | closeBracket
  /-- As `closeBracket`, with the byte of the last `)` that is worth looking at. -/
  | closeBracketBefore (lastParen : Option Nat)
deriving DecidableEq, Repr

/-- The rule that owns a trigger. -/
def Trigger.rule : Trigger → Rule
  | star => .star
  | tilde => .tilde
  | backtick => .code
  | backslash => .escape
  | underscore => .underscore
  | bang => .bang
  | openBracket => .openBracket
  | closeBracket => .closeBracket

namespace Rule

/-- What the rule makes of `rest`, which stands at byte `index`. -/
def read : Rule → Nat → List Char → Reading
  | star, _, rest => Reading.star rest
  | tilde, index, rest => Reading.tilde index rest
  | underscore, _, _ => Reading.underscore
  | code, index, rest => Reading.code index rest
  | escape, index, rest => Reading.escape index rest
  | bang, index, rest => Reading.bang index rest
  | openBracket, index, rest => Reading.openBracket index rest
  | closeBracket, index, rest => Reading.closeBracket index rest
  | closeBracketBefore lastParen, index, rest => Reading.closeBracketBefore lastParen index rest

/-- Whether `rest` starts with a scalar value of one byte, as every trigger is. -/
def startsNarrow : List Char → Bool
  | [] => false
  | c :: _ => c.utf8Size == 1

/-- Whether the rule applies to `rest` at byte `index`: all but the one for code take one byte
for the trigger, and a hint must not point past the end of the text. -/
def applies : Rule → Nat → List Char → Bool
  | code, _, _ => true
  | closeBracketBefore lastParen, index, rest => startsNarrow rest &&
      (rest[1]? != some '(' || lastParen.all (· < index + byteSize rest))
  | _, _, rest => startsNarrow rest

/-- The token and the warning at byte `index` of `text`, whatever the byte there is. -/
def readAt? (rule : Rule) (text : List Char) (index : Nat) : Option (Token × Option Warning) := do
  let rest ← dropBytes? index text
  guard (rule.applies index rest)
  let reading := rule.read index rest
  return (reading.token index rest, reading.warning)

end Rule

/-- The trigger at byte `index` of `text`. -/
def Trigger.at? (text : List Char) (index : Nat) : Option Trigger := do
  Trigger.ofChar? (← (← dropBytes? index text).head?)

end InlineMarkup
