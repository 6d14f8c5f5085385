import InlineMarkup.Warning

/-! Readings: what a rule makes of the text at a trigger. -/

namespace InlineMarkup

/-- One token of `len` scalar values, and a warning if the construct is not as it should be. -/
structure Reading where
  kind : TokenKind
  len : Nat
  warning : Option Warning
deriving DecidableEq, Repr

namespace Reading

/-- A construct that is as it should be. -/
def clean (kind : TokenKind) (len : Nat) : Reading := ⟨kind, len, none⟩

/-- A trigger that starts no construct: `len` scalar values of text. -/
def degraded (len : Nat) (warning : Warning) : Reading := ⟨.text, len, some warning⟩

/-- The token read at byte `index`, where `rest` stands. -/
def token (reading : Reading) (index : Nat) (rest : List Char) : Token :=
  ⟨reading.kind, index, rest.take reading.len⟩

end Reading

/-- The warning of a construct that lacks what is expected next: `found` stands there, or the
text ends. -/
def Warning.unexpected (kind : TokenKind) (index : Nat) (rest : List Char) (expected : String)
    (found : Option Char) (suggestion : Option String) : Warning :=
  match found with
  | none => .before kind .unexpectedEndOfInput index rest
      s!"expected {expected}, found end of input" suggestion
  | some c => .before kind .unexpectedSymbol index rest
      s!"expected {expected}, found `{c}`" suggestion

end InlineMarkup
