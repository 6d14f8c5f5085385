/-! The characters that may start a construct. -/

namespace InlineMarkup

inductive Trigger
  | star | tilde | backtick | backslash | underscore | bang | openBracket | closeBracket
deriving DecidableEq, Repr

namespace Trigger

def char : Trigger → Char
  | star => '*'
  | tilde => '~'
  | backtick => '`'
  | backslash => '\\'
  | underscore => '_'
  | bang => '!'
  | openBracket => '['
  | closeBracket => ']'

def ofChar? : Char → Option Trigger
  | '*' => some star
  | '~' => some tilde
  | '`' => some backtick
  | '\\' => some backslash
  | '_' => some underscore
  | '!' => some bang
  | '[' => some openBracket
  | ']' => some closeBracket
  | _ => none

theorem ofChar?_char (trigger : Trigger) : ofChar? trigger.char = some trigger := by
  cases trigger <;> rfl

theorem char_of_ofChar? {c : Char} {trigger : Trigger} (h : ofChar? c = some trigger) :
    trigger.char = c := by
  unfold ofChar? at h
  split at h <;> simp_all <;> subst h <;> rfl

def byte (trigger : Trigger) : UInt8 := trigger.char.toNat.toUInt8

/-- The trigger that a byte of a text stands for. Every trigger is a byte of its own, so a byte
is looked up as the scalar value of the same number. -/
def ofByte? (byte : UInt8) : Option Trigger := ofChar? (Char.ofNat byte.toNat)

def name : Trigger → String
  | star => "Star"
  | tilde => "Tilde"
  | backtick => "Backtick"
  | backslash => "Backslash"
  | underscore => "Underscore"
  | bang => "Bang"
  | openBracket => "OpenBracket"
  | closeBracket => "CloseBracket"

end Trigger

/-- Whether a scalar value may start a construct. -/
def isTrigger (c : Char) : Bool := (Trigger.ofChar? c).isSome

end InlineMarkup
